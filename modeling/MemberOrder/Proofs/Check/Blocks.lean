import MemberOrder.Proofs.Check.Payloads
import MemberOrder.Proofs.Declaration.Edits
/-! Blocks are opaque: the body of a method or of a constructor, or an initializer, can be replaced by any
other block, and the same is read of the rest and the same is found. Main statement: `parse_reblocked`. -/
namespace MemberOrder

section Matching

theorem Balanced.excess_nonneg {s r t : List Symbol} (h : Balanced s) (hs : s = r ++ t) :
    0 ≤ excess r := by
  induction h generalizing r t with
  | nil =>
    obtain ⟨rfl, _⟩ := List.append_eq_nil_iff.1 hs.symm
    exact le_refl _
  | plain hx _ ih =>
    cases r with
    | nil => exact le_refl _
    | cons y r =>
      obtain ⟨rfl, hr⟩ := List.cons.inj hs
      rw [excess_plain hx]
      exact ih hr
  | group hs' _ ihs iht =>
    cases r with
    | nil => exact le_refl _
    | cons y r =>
      obtain ⟨rfl, hr⟩ := List.cons.inj hs
      obtain ⟨a, rfl, ha⟩ | ⟨a, rfl, _⟩ := List.append_eq_append_iff.1 hr
      · rw [excess, excess_append, hs'.excess_eq]
        cases a with
        | nil => decide
        | cons y a =>
          obtain ⟨rfl, hrest⟩ := List.cons.inj ha
          have hnonneg := iht hrest
          rw [excess]
          omega
      · have hinner := ihs rfl
        rw [excess]
        omega

theorem Balanced.matching {p p' c c' : List Symbol} {b : Bracket} (hc : Balanced c)
    (hc' : Balanced c') (h : p ++ .opening b :: c = p' ++ .opening b :: c') : c = c' := by
  have hinner {a c c' : List Symbol} (hc : Balanced c) (hc' : Balanced c')
      (h : .opening b :: c = a ++ .opening b :: c') : c = c' := by
    cases a with
    | nil => exact (List.cons.inj h).2
    | cons x a =>
      have hsplit : c = a ++ .opening b :: c' := (List.cons.inj h).2
      have hexcess := congrArg excess hsplit
      rw [excess_append, excess, hc.excess_eq, hc'.excess_eq] at hexcess
      have hnonneg := hc.excess_nonneg hsplit
      omega
  obtain ⟨a, rfl, ha⟩ | ⟨a, rfl, ha⟩ := List.append_eq_append_iff.1 h
  · exact hinner hc hc' ha
  · exact (hinner hc' hc ha).symm

theorem pieces_of_block {f f' c c' : List Piece} {q q' : Piece}
    (hq : q.symbol = some (.opening .curly)) (hq' : q'.symbol = some (.opening .curly))
    (hc : Closes (.opening .curly) (heard c)) (hc' : Closes (.opening .curly) (heard c'))
    (h : f ++ q :: c = f' ++ q' :: c') : f = f' ∧ q = q' ∧ c = c' := by
  have hheard := congrArg heard h
  rw [heard_append, heard_cons _ hq, heard_append, heard_cons _ hq'] at hheard
  have hsame : heard c = heard c' := by
    generalize heard c = e at *
    generalize heard c' = e' at *
    cases hc with
    | @block b hb =>
      cases hc' with
      | @block b' hb' =>
        rw [← List.cons_append, ← List.cons_append, ← List.append_assoc, ← List.append_assoc] at hheard
        rw [hb.matching hb' (List.append_cancel_right hheard)]
  have hbehind := congrArg (behind (heard c).length) h
  rw [behind_token (by simp [hq]), hsame, behind_token (by simp [hq'])] at hbehind
  obtain rfl := hbehind
  have hfront : f ++ [q] = f' ++ [q'] := by
    have hsplit : f ++ [q] ++ c = f' ++ [q'] ++ c := by simpa using h
    exact List.append_cancel_right hsplit
  obtain ⟨rfl, hlast⟩ := List.append_inj' hfront rfl
  exact ⟨rfl, List.head_eq_of_cons_eq hlast, rfl⟩

theorem pieces_of_closes {as f bs e : List Piece} {y q : Piece}
    (he : Closes (.opening .curly) (heard e)) (hy : y.symbol ≠ none)
    (h : as ++ y :: bs = f ++ q :: (e ++ bs)) :
    ∃ c, e = c ++ [y] ∧ Balanced (heard c) ∧ y.symbol = some (.closing .curly) := by
  obtain ⟨b, hb, hbe⟩ : ∃ b, Balanced b ∧ heard e = b ++ [.closing .curly] := by
    generalize heard e = e' at he
    cases he with
    | block hb => exact ⟨_, hb, rfl⟩
  have hfront : as ++ [y] = f ++ q :: e := by
    have hboth : as ++ [y] ++ bs = f ++ q :: e ++ bs := by simpa using h
    exact List.append_cancel_right hboth
  obtain rfl | ⟨c, y', rfl⟩ := e.eq_nil_or_concat'
  · simp at hbe
  rw [← List.cons_append, ← List.append_assoc] at hfront
  obtain rfl := List.singleton_inj.1 (List.append_inj_right' hfront rfl)
  obtain ⟨z, hz⟩ := Option.ne_none_iff_exists'.1 hy
  rw [heard_append, heard_cons _ hz] at hbe
  obtain ⟨hcb, hzb⟩ := List.append_inj' hbe rfl
  obtain rfl : z = .closing .curly := List.head_eq_of_cons_eq hzb
  exact ⟨c, rfl, hcb ▸ hb, hz⟩

end Matching

open Rule

section Swap

variable {w bs cs : List Piece}

def Edit.swap (hbs : behind (heard bs).length w = bs)
    (hcs : Closes (.opening .curly) (heard cs)) : Edit Extent Unit w where
  turns es ps ps' := es = [] ∧ ps' = ps ∨ ∃ a f q c, es = [a] ∧ ps = f ++ q :: (c ++ bs) ∧
    (heard (q :: (c ++ bs))).length ≤ a.unread ∧ q.symbol = some (.opening .curly) ∧
    Closes (.opening .curly) (heard c) ∧ ps' = f ++ q :: (cs ++ bs)
  place _ := ()
  place' _ := ()
  gone _ _ _ := false
  marks _ _ x := if x.hasBlock ∧ x.span.left = (heard bs).length then [x.span] else []
  keep := by
    intro es g qs qs' q z hz hq hw h
    obtain ⟨rfl, rfl⟩ | ⟨a, f, q', c, rfl, rfl, ha, hq', hc, rfl⟩ := h
    · exact .inl ⟨rfl, rfl⟩
    · exact .inr ⟨a, g ++ q :: f, q', c, rfl, by simp, ha, hq', hc, by simp⟩
  place_eq _ _ _ _ := rfl
  first_eq _ _ _ := rfl
  leaf := by
    intro kind owner s t x g c qs q z es hw h ht ordered earlier
    refine .inr ⟨rfl, ?_⟩
    have hspan : x.span = ⟨s.length, t.length⟩ := h.placed.span
    have hshort := length_heard_behind_le t.length w
    by_cases hmark : x.hasBlock ∧ x.span.left = (heard bs).length
    · obtain rfl := h.block hmark.1
      have hrest : behind t.length w = bs := by
        rw [← hbs, ← hmark.2, hspan]
      rw [if_pos hmark]
      obtain ⟨rfl, rfl⟩ | ⟨_, f, q', c', _, hsplit, _, hq', _⟩ := ht
      · have hinside : (heard (q :: (c ++ bs))).length ≤ x.span.unread := by
          have hlength := congrArg List.length (congrArg heard h.pieces)
          rw [heard_behind hw, hrest, heard_append, List.length_append] at hlength
          rw [hspan]
          change _ ≤ s.length
          omega
        exact ⟨cs, hcs, .inr ⟨x.span, g, q, c, rfl, by rw [hrest], hinside, h.sign, h.closes,
          by rw [hrest]⟩⟩
      -- The block in front of `bs` is not behind the end of a member that ends there.
      · have hlength := congrArg List.length (congrArg heard hsplit)
        rw [hrest, heard_append, heard_cons _ hq', heard_append] at hlength
        simp only [List.length_append, List.length_cons] at hlength
        omega
    · rw [if_neg hmark]
      refine ⟨c, h.closes, ?_⟩
      obtain ⟨rfl, rfl⟩ | ⟨a, f, q', c', rfl, hsplit, ha, hq', hc', rfl⟩ := ht
      · exact .inl ⟨rfl, rfl⟩
      · exact .inr ⟨a, g ++ q :: (c ++ f), q', c', rfl, by rw [hsplit]; simp, ha, hq', hc', by simp⟩

end Swap

section Members

variable {σ σ' τ τ' : Type}

theorem Member.isLeaf_of_hasBlock {x : Member σ τ} (h : x.hasBlock) : x.IsLeaf := by
  intro d hx
  subst hx
  cases h

theorem Member.hasBlock_map (f : σ → σ') (g : τ → τ') (x : Member σ τ) :
    (x.map f g).hasBlock = x.hasBlock := by
  cases x <;> rfl

end Members

section File

variable {w : List Piece} {v : CompilationUnit Extent Extent} {t : List Symbol}

theorem member_inside (hfile : file (heard w) = .ok v t) {d e : RawType} (hd : d ∈ v.types)
    (he : d.Holds e) {x : RawMember} (hx : x ∈ e.members) : x.span.Inside (heard w).length := by
  obtain ⟨head, constants, rest, behind, hplaced⟩ := (file_laid hfile).2.2 d hd e he
  refine hplaced.inside _ (List.mem_cons_of_mem _ (List.mem_cons_of_mem _ ?_))
  exact List.mem_append_right _ (List.mem_flatMap.2 ⟨x, hx, List.mem_cons_self⟩)

theorem exists_swap (hfile : file (heard w) = .ok v t) {d e : RawType} (hd : d ∈ v.types)
    (he : d.Holds e) {x : RawMember} (hx : x ∈ e.members) (hblock : x.hasBlock) {cs : List Piece}
    (hcs : Closes (.opening .curly) (heard cs)) :
    ∃ f q c v', w = f ++ q :: (c ++ behind x.span.left w) ∧
      (heard (q :: (c ++ behind x.span.left w))).length ≤ x.span.unread ∧
      q.symbol = some (.opening .curly) ∧ Closes (.opening .curly) (heard c) ∧
      file (heard (f ++ q :: (cs ++ behind x.span.left w))) = .ok v' [] ∧
      v'.map (fun _ => ()) (textIn (f ++ q :: (cs ++ behind x.span.left w))) =
        v.map (fun _ => ()) (textIn w) := by
  have hinside := member_inside hfile hd he hx
  have hlength := length_heard_behind (hinside.1.le.trans hinside.2)
  have hbs : behind (heard (behind x.span.left w)).length w = behind x.span.left w := by rw [hlength]
  have hmark : x.span ∈ v.types.flatMap (TypeDecl.gather (Edit.swap hbs hcs).marks) := by
    obtain ⟨ordered, earlier, hmem⟩ := he.exists_gather hx (Edit.swap hbs hcs).marks
    refine List.mem_flatMap.2 ⟨d, hd, hmem _ ?_⟩
    rw [(Member.isLeaf_of_hasBlock hblock).gather]
    change x.span ∈ if _ then _ else _
    rw [if_pos ⟨hblock, hlength.symm⟩]
    exact List.mem_singleton_self x.span
  have hend : (Edit.swap hbs hcs).turns [] (behind 0 w) (behind 0 w) := .inl ⟨rfl, rfl⟩
  obtain ⟨w', v', hturns, hfile', hmap⟩ := Edit.file_follows hfile hend (heard_behind List.nil_suffix)
  obtain ⟨hnone, _⟩ | ⟨a, f, q, c, hone, hw, ha, hq, hc, rfl⟩ := hturns
  · rw [hnone] at hmark
    cases hmark
  · rw [hone] at hmark
    obtain rfl := List.mem_singleton.1 hmark
    refine ⟨f, q, c, v', hw, ha, hq, hc, hfile', hmap.trans ?_⟩
    have hall : v.without (Edit.swap hbs hcs).gone = v :=
      CompilationUnit.without_eq_self (fun _ _ _ => rfl) v
    rw [hall]

theorem swap_follows (hfile : file (heard w) = .ok v t) {d e : RawType} (hd : d ∈ v.types)
    (he : d.Holds e) {x : RawMember} (hx : x ∈ e.members) (hblock : x.hasBlock) :
    ∃ f q c y bs, w = f ++ q :: (c ++ y :: bs) ∧ (heard bs).length = x.span.left ∧
      (heard (q :: (c ++ y :: bs))).length ≤ x.span.unread ∧
      q.symbol = some (.opening .curly) ∧ Balanced (heard c) ∧ y.symbol = some (.closing .curly) ∧
      ∀ {cs}, Balanced (heard cs) → ∃ v', file (heard (f ++ q :: (cs ++ y :: bs))) = .ok v' [] ∧
        v'.map (fun _ => ()) (textIn (f ++ q :: (cs ++ y :: bs))) = v.map (fun _ => ()) (textIn w) := by
  have hinside := member_inside hfile hd he hx
  obtain ⟨as, y, bs, hsplit, hy, hbs⟩ := exists_token (hinside.1.trans_le hinside.2)
  have hrest : behind x.span.left w = bs := by
    rw [hsplit, ← hbs, behind_token hy]
  have hswap (cs : List Piece) (hcs : Closes (.opening .curly) (heard cs)) :=
    exists_swap hfile hd he hx hblock hcs
  rw [hrest] at hswap
  obtain ⟨f, q, e, _, hw, hunread, hq, he, _⟩ :=
    hswap [⟨some (.closing .curly), ['\x7d']⟩] (.block (c := []) .nil)
  obtain ⟨c, rfl, hc, hy⟩ := pieces_of_closes he hy (hsplit.symm.trans hw)
  refine ⟨f, q, c, y, bs, by simpa using hw, hbs, by simpa using hunread, hq, hc, hy,
    fun {cs} hcs => ?_⟩
  have hcloses : Closes (.opening .curly) (heard (cs ++ [y])) := by
    rw [heard_append, heard_cons _ hy, heard_nil]
    exact .block hcs
  obtain ⟨f', q', e', v', hw', _, hq', he', hfile', hmap⟩ := hswap _ hcloses
  have hsame : f ++ q :: (c ++ [y]) = f' ++ q' :: e' := by
    have hboth : f ++ q :: (c ++ [y]) ++ bs = f' ++ q' :: e' ++ bs := by
      simp only [List.append_assoc, List.cons_append] at hw ⊢
      rw [← hw, ← hw']
    exact List.append_cancel_right hboth
  obtain ⟨rfl, rfl, _⟩ := pieces_of_block hq hq' he he' hsame
  simp only [List.append_assoc, List.singleton_append] at hfile' hmap
  exact ⟨v', hfile', hmap⟩

end File

def bracesAround (inside : List Char) : List Char :=
  '{' :: (inside ++ ['}'])

/-- The block that ends a member, in the text: from the last token of the member back to the token that
this one matches. -/
structure BlockOf (source : List Char) (x : Member Span String) (before inside behind : List Char) :
    Prop where
  text : source = before ++ bracesAround inside ++ behind
  start : x.span.start ≤ byteCount before
  stop : x.span.stop = byteCount (before ++ bracesAround inside)
  tokens : ∃ ts pre o c e post, tokenize source = .ok ts ∧ ts.list = pre ++ o :: (c ++ e :: post) ∧
    o.symbol = .opening .curly ∧ o.span.start = byteCount before ∧ Balanced (c.map (·.symbol)) ∧
    e.symbol = .closing .curly ∧ e.span.stop = x.span.stop

section Text

variable {f c bs : List Piece} {q y : Piece} {s : List Char}

theorem tokensFrom_token {z : Symbol} (hq : q.symbol = some z) (p : Position) (ps : List Piece) :
    tokensFrom p (q :: ps) =
      ⟨z, q.text, .between p (p.after q.text)⟩ :: tokensFrom (p.after q.text) ps := by
  obtain ⟨symbol, text⟩ := q
  obtain rfl : symbol = some z := hq
  rfl

theorem scan_reblocked (hscan : scan s = ⟨f ++ q :: (c ++ y :: bs), none⟩)
    (hq : q.symbol = some (.opening .curly)) (hy : y.symbol = some (.closing .curly))
    {text : List Char} {ps : List Piece} (htext : scan text = ⟨ps, none⟩) :
    scan (joined f ++ bracesAround (text ++ ['\n']) ++ joined bs) =
      ⟨f ++ q :: (ps ++ [⟨none, ['\n']⟩] ++ y :: bs), none⟩ := by
  have hinner : scan s = ⟨f ++ q :: c ++ y :: bs, none⟩ := by simpa using hscan
  have houter : scan s = ⟨f ++ q :: c ++ [y] ++ bs, none⟩ := by simpa using hscan
  have hopening := (stop_of_scan hscan hq .opening).1
  obtain ⟨hclosing, hshut⟩ := stop_of_scan hinner hy .closing
  have hsplit : joined f ++ bracesAround (text ++ ['\n']) ++ joined bs =
      joined (f ++ [q]) ++ (text ++ '\n' :: (joined [y] ++ joined bs)) := by
    have hq' : joined [q] = ['{'] := by rw [joined, List.flatMap_singleton, hopening]; rfl
    have hy' : joined [y] = ['}'] := by rw [joined, List.flatMap_singleton, hclosing]; rfl
    rw [joined_append, hq', hy']
    simp [bracesAround]
  rw [hsplit, shut_of_stops hscan hq .opening, scan_append_feed htext, hshut, scan_drop houter]
  simp [Pieces.prepend]

theorem tokensFrom_around (f c bs : List Piece) {z z' : Symbol} (hq : q.symbol = some z) (hy : y.symbol = some z') :
    ∃ pre o mid e post,
      tokensFrom .start (f ++ q :: (c ++ y :: bs)) = pre ++ o :: (mid ++ e :: post) ∧
      o.symbol = z ∧ o.span.start = byteCount (joined f) ∧ mid.map (·.symbol) = heard c ∧
      e.symbol = z' ∧ e.span.stop = byteCount (joined (f ++ q :: (c ++ [y]))) := by
  rw [tokensFrom_append, tokensFrom_token hq, tokensFrom_append, tokensFrom_token hy]
  refine ⟨_, _, _, _, _, rfl, rfl, ?_, symbol_tokensFrom c _, rfl, ?_⟩
  · rw [Span.between, Position.start_after]
  · simp only [Span.between, ← Position.after_append]
    rw [Position.start_after]
    simp [joined]

theorem Ordered.start_spanAt_le {ts : Tokens} (h : Ordered ts.list) {i j : Nat} (hj : 0 < j)
    (hij : j ≤ i) (hi : i ≤ ts.list.length) : (ts.spanAt i).start ≤ (ts.spanAt j).start := by
  obtain rfl | hlt := hij.eq_or_lt
  · exact le_refl _
  · have hnonempty := span_nonempty h (e := ⟨i, i - 1⟩) ⟨by change i - 1 < i; omega, hi⟩
    have hsucc : i - 1 + 1 = i := by omega
    simp only [Tokens.span, Span.join, hsucc] at hnonempty
    exact hnonempty.le.trans (h.stop_spanAt_le hj hlt hi)

theorem blockOf_pieces (hscan : scan s = ⟨f ++ q :: (c ++ y :: bs), none⟩)
    (hq : q.symbol = some (.opening .curly)) (hc : Balanced (heard c))
    (hy : y.symbol = some (.closing .curly)) {x : Member Span String} {a : Extent}
    (ha : a.Inside (heard (f ++ q :: (c ++ y :: bs))).length) (hleft : (heard bs).length = a.left)
    (hunread : (heard (q :: (c ++ y :: bs))).length ≤ a.unread)
    (hx : x.span = (Tokens.ofPieces (f ++ q :: (c ++ y :: bs))).span a) :
    BlockOf s x (joined f) (joined c) (joined bs) := by
  have hinner : scan s = ⟨f ++ q :: c ++ y :: bs, none⟩ := by simpa using hscan
  have hopening : q.text = ['{'] := (stop_of_scan hscan hq .opening).1
  have hclosing : y.text = ['}'] := (stop_of_scan hinner hy .closing).1
  obtain ⟨hts, hs⟩ := tokenize_of_pieces hscan
  have hblock : joined (q :: (c ++ [y])) = bracesAround (joined c) := by
    simp [joined, hopening, hclosing, bracesAround]
  have hwhole : Stretch (q :: (c ++ [y])) :=
    ⟨⟨q, _, rfl, by simp [hq]⟩, q :: c, y, rfl, by simp [hy]⟩
  have hpieces : f ++ (q :: (c ++ [y]) ++ bs) = f ++ q :: (c ++ y :: bs) := by simp
  have hspan := hwhole.span_eq f bs
  rw [hpieces, hblock] at hspan
  have hstop : x.span.stop = byteCount (joined f ++ bracesAround (joined c)) := by
    have hstop := congrArg Span.stop hspan
    rw [hx]
    simpa [Tokens.span, Span.join, Span.between, Position.start_after, hleft] using hstop
  have hordered := ordered_of_tokenize hts
  have hlength : (Tokens.ofPieces (f ++ q :: (c ++ y :: bs))).list.length =
      (heard (f ++ q :: (c ++ y :: bs))).length := length_tokensFrom _ _
  exact {
    text := by
      rw [hs, ← hblock]
      simp [joined]
    start := by
      have hfirst := congrArg Span.start hspan
      have hle := hordered.start_spanAt_le (j := (heard (q :: (c ++ y :: bs))).length)
        (by simp [heard_cons _ hq]) hunread (hlength ▸ ha.2)
      rw [hx]
      simp only [Span.between, Position.start_after, List.cons_append,
        List.append_assoc] at hfirst
      exact hle.trans_eq hfirst
    stop := hstop
    tokens := by
      obtain ⟨pre, o, mid, e, post, hlist, ho, hstart, hmid, he, hlast⟩ :=
        tokensFrom_around f c bs hq hy
      refine ⟨_, pre, o, mid, e, post, hts, hlist, ho, hstart, hmid ▸ hc, he, ?_⟩
      rw [hlast, hstop, joined_append, hblock] }

end Text

/-- A block, and any other text with brackets that match in its place, whatever else is in it. -/
theorem parse_reblocked {source : String} {u : SourceUnit} (h : parse source.toList = .ok u)
    {d e : TypeDecl Span String} (hd : d ∈ u.types) (he : d.Holds e) {x : Member Span String}
    (hx : x ∈ e.members) (hblock : x.hasBlock) : ∃ before inside behind,
      BlockOf source.toList x before inside behind ∧
      ∀ {text : List Char} {ts : Tokens}, tokenize text = .ok ts → Balanced ts.symbols →
        ∃ u', parse (before ++ bracesAround (text ++ ['\n']) ++ behind) = .ok u' ∧
          u'.map (fun _ => ()) id = u.map (fun _ => ()) id ∧
          ∀ path, ∃ vs vs', checkSource path source = .ok vs ∧
            checkSource path (String.ofList (before ++ bracesAround (text ++ ['\n']) ++ behind)) =
              .ok vs' ∧
            vs'.map Violation.told = vs.map Violation.told := by
  obtain ⟨w, v, hscan, hfile, rfl⟩ := pieces_of_parse h
  obtain ⟨d₀, hd₀, rfl⟩ := List.mem_map.1 hd
  obtain ⟨e₀, he₀, rfl⟩ := he.of_map
  rw [TypeDecl.members_map] at hx
  obtain ⟨x₀, hx₀, rfl⟩ := List.mem_map.1 hx
  rw [Member.hasBlock_map] at hblock
  obtain ⟨f, q, c, y, bs, rfl, hleft, hunread, hq, hc, hy, hswap⟩ :=
    swap_follows hfile hd₀ he₀ hx₀ hblock
  refine ⟨joined f, joined c, joined bs, ?block, fun {text ts} hts hbalanced => ?again⟩
  case block =>
    have hspan := Member.span_map (Tokens.ofPieces (f ++ q :: (c ++ y :: bs))).span
      (textIn (f ++ q :: (c ++ y :: bs))) x₀
    exact blockOf_pieces hscan hq hc hy (member_inside hfile hd₀ he₀ hx₀) hleft hunread hspan
  case again =>
    obtain ⟨hopen, rfl⟩ := tokenize_eq_ok hts
    have htext : scan text = ⟨(scan text).pieces, none⟩ := by rw [← hopen]
    have hnew := scan_reblocked hscan hq hy htext
    have hinside : Balanced (heard ((scan text).pieces ++ [⟨none, ['\n']⟩])) := by
      rw [heard_append, heard_cons_none _ rfl, heard_nil, List.append_nil]
      simpa [Tokens.symbols, symbol_tokensFrom] using hbalanced
    obtain ⟨v', hfile', hmap⟩ := hswap hinside
    obtain ⟨u', hu', htree⟩ :
        ∃ u', parse (joined f ++ bracesAround (text ++ ['\n']) ++ joined bs) = .ok u' ∧
          u'.map (fun _ => ()) id = (v.map (Tokens.ofPieces (f ++ q :: (c ++ y :: bs))).span
            (textIn (f ++ q :: (c ++ y :: bs)))).map (fun _ => ()) id := by
      refine ⟨_, parse_of_file hnew hfile', ?_⟩
      rw [CompilationUnit.map_map, CompilationUnit.map_map]
      exact hmap
    refine ⟨u', hu', htree, fun path => ⟨_, _, checkSource_of_parse h path,
      checkSource_of_parse (by rw [String.toList_ofList, hu']) path,
      CompilationUnit.told_congr_of_places htree⟩⟩

/-- A class in a block, a bracket that is not one, and a comment with a bracket in it at the end. -/
def localClass : List Char :=
  ['c', 'l', 'a', 's', 's', ' ', 'B', 'o', 'x', '{', '<', '}', '/', '/', '}']

open Written in
theorem parse_reblocked_boxWith :
    let box := String.ofList (write (boxWith brace))
    ∃ u d x before inside behind ts u', parse box.toList = .ok u ∧ d ∈ u.types ∧ x ∈ d.members ∧
      x.hasBlock ∧ BlockOf box.toList x before inside behind ∧ tokenize localClass = .ok ts ∧
      Balanced ts.symbols ∧
      parse (before ++ bracesAround (localClass ++ ['\n']) ++ behind) = .ok u' ∧
      u'.map (fun _ => ()) id = u.map (fun _ => ()) id := by
  intro box
  obtain ⟨v, hfile, hany⟩ : ∃ v, Rule.file (symbols (boxWith brace)) = .ok v [] ∧
      v.types.any (fun d => d.members.any Member.hasBlock) := ⟨_, by cbv, rfl⟩
  have hbox : parse box.toList = .ok ((reading (boxWith brace)).located v) := by
    rw [String.toList_ofList, parse_write_eq, Reading.next, reading, hfile]
  have hunit : ((reading (boxWith brace)).located v).types.any
      (fun d => d.members.any Member.hasBlock) := by
    simpa [Reading.located, CompilationUnit.map, List.any_map, Function.comp_def,
      Member.hasBlock_map] using hany
  obtain ⟨d, hd, hmember⟩ := List.any_eq_true.1 hunit
  obtain ⟨x, hx, hblock⟩ := List.any_eq_true.1 hmember
  obtain ⟨ps, hps, hsymbols⟩ : ∃ ps, scan localClass = ⟨ps, none⟩ ∧
      (tokensFrom .start ps).map (·.symbol) =
        [.keyword .class, .identifier "Box", .opening .curly, .mark .less, .closing .curly] :=
    ⟨_, scan_of_head rfl <| scan_of_head rfl <| scan_of_head rfl <| scan_of_head rfl <|
      scan_of_head rfl <| scan_of_head rfl <| scan_of_head rfl scan_nil, rfl⟩
  have hts := tokenize_of_scan hps
  have hbalanced : Balanced ((tokensFrom .start ps).map (·.symbol)) := by
    rw [hsymbols]
    exact .plain rfl (.plain rfl (.group (.plain rfl .nil) .nil))
  obtain ⟨before, inside, behind, hof, hagain⟩ := parse_reblocked hbox hd .self hx hblock
  obtain ⟨u', hu', hsame, _⟩ := hagain hts hbalanced
  exact ⟨_, d, x, before, inside, behind, _, u', hbox, hd, hx, hblock, hof, hts, hbalanced, hu', hsame⟩

end MemberOrder
