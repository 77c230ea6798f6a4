import MemberOrder.Proofs.Declaration.Parts
import MemberOrder.Proofs.Token.Lossless
/-! The tokens of declarations: those in a body are cut into its members, and those of a file into its
types and what stands between them. Main statement: `parse_partition`. -/
namespace MemberOrder

def Span.Within (a b : Span) : Prop :=
  b.start ≤ a.start ∧ a.stop ≤ b.stop

instance (a b : Span) : Decidable (a.Within b) :=
  inferInstanceAs (Decidable (_ ∧ _))

/-- The span is from the start of the first of these tokens to the end of the last. -/
def Covers (g : List Token) (a : Span) : Prop :=
  ∃ first last, g.head? = some first ∧ g.getLast? = some last ∧ a = first.span.join last.span

/-- Tokens cut into runs, one for each span, and gaps between them. -/
inductive CutInto (gap : List Symbol → Prop) : List Token → List Span → Prop
  | done : CutInto gap [] []
  | gap {g ts as} (hg : gap (g.map (·.symbol))) (hts : CutInto gap ts as) : CutInto gap (g ++ ts) as
  | run {g ts a as} (hg : Covers g a) (hts : CutInto gap ts as) : CutInto gap (g ++ ts) (a :: as)

structure Ordered (ts : List Token) : Prop where
  nonempty : ∀ t ∈ ts, t.span.start < t.span.stop
  pairwise : ts.Pairwise fun t u => t.span.stop ≤ u.span.start

namespace Ordered

variable {g ts : List Token}

theorem left (h : Ordered (g ++ ts)) : Ordered g :=
  ⟨fun t ht => h.nonempty t (List.mem_append_left _ ht), (List.pairwise_append.1 h.pairwise).1⟩

theorem right (h : Ordered (g ++ ts)) : Ordered ts :=
  ⟨fun t ht => h.nonempty t (List.mem_append_right _ ht), (List.pairwise_append.1 h.pairwise).2.1⟩

theorem stop_le (h : Ordered (g ++ ts)) {t u : Token} (ht : t ∈ g) (hu : u ∈ ts) :
    t.span.stop ≤ u.span.start :=
  (List.pairwise_append.1 h.pairwise).2.2 t ht u hu

theorem start_le_of_head? (h : Ordered ts) {first t : Token} (hf : ts.head? = some first)
    (ht : t ∈ ts) : first.span.start ≤ t.span.start := by
  obtain ⟨us, rfl⟩ := List.head?_eq_some_iff.1 hf
  obtain rfl | ht := List.mem_cons.1 ht
  · exact le_refl _
  · have hlt := h.nonempty first List.mem_cons_self
    have hle := (List.pairwise_cons.1 h.pairwise).1 t ht
    omega

theorem stop_le_of_getLast? (h : Ordered ts) {last t : Token} (hl : ts.getLast? = some last)
    (ht : t ∈ ts) : t.span.stop ≤ last.span.stop := by
  obtain ⟨us, rfl⟩ := List.getLast?_eq_some_iff.1 hl
  have hlt := h.right.nonempty last List.mem_cons_self
  obtain ht | ht := List.mem_append.1 ht
  · have hle := h.stop_le ht List.mem_cons_self
    omega
  · rw [List.mem_singleton.1 ht]

end Ordered

namespace Covers

variable {g : List Token} {a : Span}

theorem join (h : Covers g a) : ∃ t ∈ g, ∃ u ∈ g, a = t.span.join u.span := by
  obtain ⟨first, last, hf, hl, rfl⟩ := h
  exact ⟨first, List.mem_of_head? hf, last, List.mem_of_getLast? hl, rfl⟩

theorem within (h : Covers g a) (hg : Ordered g) {t : Token} (ht : t ∈ g) : t.span.Within a := by
  obtain ⟨first, last, hf, hl, rfl⟩ := h
  exact ⟨hg.start_le_of_head? hf ht, hg.stop_le_of_getLast? hl ht⟩

end Covers

namespace CutInto

variable {gap : List Symbol → Prop} {ts : List Token} {as : List Span}

theorem join (h : CutInto gap ts as) : ∀ a ∈ as, ∃ t ∈ ts, ∃ u ∈ ts, a = t.span.join u.span := by
  induction h with
  | done => simp
  | gap hg hts ih =>
    intro a ha
    obtain ⟨t, ht, u, hu, h⟩ := ih a ha
    exact ⟨t, List.mem_append_right _ ht, u, List.mem_append_right _ hu, h⟩
  | run hg hts ih =>
    intro a ha
    obtain rfl | ha := List.mem_cons.1 ha
    · obtain ⟨t, ht, u, hu, h⟩ := hg.join
      exact ⟨t, List.mem_append_left _ ht, u, List.mem_append_left _ hu, h⟩
    · obtain ⟨t, ht, u, hu, h⟩ := ih a ha
      exact ⟨t, List.mem_append_right _ ht, u, List.mem_append_right _ hu, h⟩

theorem start_lt_stop (h : CutInto gap ts as) (hts : Ordered ts) : ∀ a ∈ as, a.start < a.stop := by
  induction h with
  | done => simp
  | gap hg _ ih => exact ih hts.right
  | @run g ts a as hg _ ih =>
    intro b hb
    obtain rfl | hb := List.mem_cons.1 hb
    · obtain ⟨t, ht, _⟩ := hg.join
      have hlt := hts.left.nonempty t ht
      have hwithin := hg.within hts.left ht
      unfold Span.Within at hwithin
      omega
    · exact ih hts.right b hb

theorem stop_le_start (h : CutInto gap ts as) {g : List Token} (hts : Ordered (g ++ ts)) {t : Token}
    (ht : t ∈ g) : ∀ a ∈ as, t.span.stop ≤ a.start := by
  intro a ha
  obtain ⟨first, hfirst, _, _, rfl⟩ := h.join a ha
  exact hts.stop_le ht hfirst

theorem pairwise (h : CutInto gap ts as) (hts : Ordered ts) :
    as.Pairwise fun a b => a.stop ≤ b.start := by
  induction h with
  | done => exact .nil
  | gap _ _ ih => exact ih hts.right
  | run hg hcut ih =>
    refine .cons (fun b hb => ?_) (ih hts.right)
    obtain ⟨_, _, last, hlast, rfl⟩ := hg.join
    exact hcut.stop_le_start hts hlast b hb

theorem countP_eq (h : CutInto gap ts as) (hts : Ordered ts) : ∀ t ∈ ts,
    as.countP (t.span.Within ·) = 1 ∨ as.countP (t.span.Within ·) = 0 ∧
      ∃ before g behind, ts = before ++ (g ++ behind) ∧ t ∈ g ∧ gap (g.map (·.symbol)) := by
  -- A token in front of others lies in none of the spans they are cut into.
  have hnone {g ts : List Token} {as : List Span} (hcut : CutInto gap ts as)
      (hts : Ordered (g ++ ts)) {t : Token} (ht : t ∈ g) : as.countP (t.span.Within ·) = 0 := by
    refine List.countP_eq_zero.2 fun a ha hin => ?_
    have hle := hcut.stop_le_start hts ht a ha
    have hlt := hts.left.nonempty t ht
    have hwithin : t.span.Within a := by simpa using hin
    exact absurd hwithin.1 (by omega)
  induction h with
  | done => simp
  | @gap g ts as hg hcut ih =>
    intro t ht
    obtain ht | ht := List.mem_append.1 ht
    · exact .inr ⟨hnone hcut hts ht, [], g, ts, rfl, ht, hg⟩
    · obtain hone | ⟨hzero, before, g', behind, rfl, hg'⟩ := ih hts.right t ht
      · exact .inl hone
      · exact .inr ⟨hzero, g ++ before, g', behind, by simp, hg'⟩
  | @run g ts a as hg hcut ih =>
    intro t ht
    obtain ht | ht := List.mem_append.1 ht
    · left
      rw [List.countP_cons, hnone hcut hts ht, if_pos (by simpa using hg.within hts.left ht)]
    · have hout : ¬ t.span.Within a := by
        obtain ⟨_, _, last, hlast, rfl⟩ := hg.join
        have hle := hts.stop_le hlast ht
        have hlt := hts.right.nonempty t ht
        simp only [Span.Within, Span.join]
        omega
      rw [List.countP_cons, if_neg (by simpa using hout), Nat.add_zero]
      obtain hone | ⟨hzero, before, g', behind, rfl, hg'⟩ := ih hts.right t ht
      · exact .inl hone
      · exact .inr ⟨hzero, g ++ before, g', behind, by simp, hg'⟩

end CutInto

namespace Tokens

variable {ts : Tokens} {pre g post : List Token}

theorem spanAt_of_head? (hl : ts.list = pre ++ (g ++ post)) {t : Token} (ht : g.head? = some t) :
    ts.spanAt (g ++ post).length = t.span := by
  obtain ⟨g', rfl⟩ := List.head?_eq_some_iff.1 ht
  simp [spanAt, hl]

theorem spanAt_of_getLast? (hl : ts.list = pre ++ (g ++ post)) {t : Token}
    (ht : g.getLast? = some t) : ts.spanAt (post.length + 1) = t.span := by
  obtain ⟨g', rfl⟩ := List.getLast?_eq_some_iff.1 ht
  have hl' : ts.list = (pre ++ g') ++ ([t] ++ post) := by simp [hl]
  exact spanAt_of_head? hl' rfl

theorem span_eq_join (hl : ts.list = pre ++ (g ++ post)) {first last : Token}
    (hf : g.head? = some first) (hlast : g.getLast? = some last) :
    ts.span ⟨(g ++ post).length, post.length⟩ = first.span.join last.span := by
  rw [span, spanAt_of_head? hl hf, spanAt_of_getLast? hl hlast]

theorem covers_span (hl : ts.list = pre ++ (g ++ post)) (hne : g ≠ []) :
    Covers g (ts.span ⟨(g ++ post).length, post.length⟩) :=
  have hf := List.head?_eq_some_head hne
  have hlast := List.getLast?_eq_some_getLast hne
  ⟨_, _, hf, hlast, span_eq_join hl hf hlast⟩

theorem length_symbols (ts : Tokens) : ts.symbols.length = ts.list.length :=
  List.length_map _

end Tokens

theorem Member.Tiles.le {n k : Nat} {xs : List RawMember} (h : Tiles n xs k) : k ≤ n := by
  induction h with
  | nil => exact le_refl _
  | cons hlt _ _ ih => omega

theorem Member.Tiles.cutInto {ts : Tokens} {n k : Nat} {xs : List RawMember} (h : Tiles n xs k)
    {pre l post : List Token} (hl : ts.list = pre ++ (l ++ post)) (hn : n = (l ++ post).length)
    (hk : k = post.length) : CutInto (fun _ => False) l (xs.map fun x => ts.span x.span) := by
  induction h generalizing pre l with
  | nil =>
    obtain rfl : l = [] := by
      rw [← List.length_eq_zero_iff]
      simp only [List.length_append] at hn
      omega
    exact .done
  | @cons n i k x xs hlt hx hxs ih =>
    have hle := hxs.le
    have hsplit : l.take (n - i) ++ l.drop (n - i) = l := List.take_append_drop _ _
    have hi : i = (l.drop (n - i) ++ post).length := by
      simp only [List.length_append, List.length_drop] at hn ⊢
      omega
    have hne : l.take (n - i) ≠ [] := by
      rw [← List.length_pos_iff, List.length_take]
      simp only [List.length_append] at hn
      omega
    have hrun : ts.list = pre ++ (l.take (n - i) ++ (l.drop (n - i) ++ post)) := by
      rw [← List.append_assoc (l.take _), hsplit, hl]
    have hcovers := Tokens.covers_span hrun hne
    rw [← hi, ← List.append_assoc, hsplit, ← hn, ← hx.span] at hcovers
    have hpre : ts.list = (pre ++ l.take (n - i)) ++ (l.drop (n - i) ++ post) := by simp [hrun]
    rw [← hsplit]
    exact .run hcovers (ih hpre hi hk)

theorem FileParts.cutInto {ts : Tokens} {s : List Symbol} {ds : List RawType} (h : FileParts s ds)
    {pre l : List Token} (hl : ts.list = pre ++ l) (hs : l.map (·.symbol) = s) :
    CutInto Between l (ds.map fun d => ts.span d.span) := by
  induction h generalizing pre l with
  | done =>
    rw [List.map_eq_nil_iff.1 hs]
    exact .done
  | @between c s ds hc _ ih =>
    obtain ⟨g, l, rfl, rfl, rfl⟩ := List.map_eq_append_iff.1 hs
    have hpre : ts.list = (pre ++ g) ++ l := by simp [hl]
    exact .gap hc (ih hpre rfl)
  | @type c s d ds hne hd _ ih =>
    obtain ⟨g, l, rfl, rfl, rfl⟩ := List.map_eq_append_iff.1 hs
    have hcovers := Tokens.covers_span hl (by simpa using hne)
    have hpre : ts.list = (pre ++ g) ++ l := by simp [hl]
    refine .run ?_ (ih hpre rfl)
    simpa [hd] using hcovers

/-- The braces of a declaration in a text, and what is between them: its constants, if it is an enum,
and the tokens of its members. -/
structure TypeDecl.Partition (ts : List Token) (d : TypeDecl Span String) (opening : Token)
    (constants rest : List Token) (closing : Token) : Prop where
  tokens : ∃ before behind : List Token,
    ts = before ++ opening :: (constants ++ (rest ++ closing :: behind))
  braces : opening.symbol = .opening .curly ∧ closing.symbol = .closing .curly
  /-- Between the braces all brackets are paired, but for closers loose in angle brackets. -/
  matched : ∃ loose, BalancedBut ((constants ++ rest).map (·.symbol)) loose
  constantSection : ConstantSection d.kind (constants.map (·.symbol)) (rest.map (·.symbol))
  body : d.body = opening.span.join closing.span
  within : d.body.Within d.span ∧ d.body.stop = d.span.stop
  ends : ∀ m ∈ d.members, ∃ t ∈ rest, ∃ u ∈ rest, m.span = t.span.join u.span
  nonempty : ∀ m ∈ d.members, m.span.start < m.span.stop
  ordered : d.members.Pairwise fun m n => m.span.stop ≤ n.span.start
  covered : ∀ t ∈ rest, d.members.countP (fun m => t.span.Within m.span) = 1

theorem tokens_of_braced {head constants rest behind : List Symbol} {ts : List Token}
    (h : head ++ braced constants rest behind <:+ ts.map (·.symbol)) :
    ∃ (before hd : List Token) (opening : Token) (cs rs : List Token) (closing : Token)
      (after : List Token),
      ts = before ++ (hd ++ opening :: (cs ++ (rs ++ closing :: after))) ∧
      opening.symbol = .opening .curly ∧ closing.symbol = .closing .curly ∧
      head = hd.map (·.symbol) ∧ constants = cs.map (·.symbol) ∧ rest = rs.map (·.symbol) ∧
      behind = after.map (·.symbol) := by
  obtain ⟨front, hfront⟩ := h
  obtain ⟨before, ts₁, rfl, _, hs₁⟩ := List.map_eq_append_iff.1 hfront.symm
  obtain ⟨hd, ts₂, rfl, hhead, hs₂⟩ := List.map_eq_append_iff.1 hs₁
  obtain ⟨opening, ts₃, rfl, hopening, hs₃⟩ := List.map_eq_cons_iff.1 hs₂
  obtain ⟨cs, ts₄, rfl, hconstants, hs₄⟩ := List.map_eq_append_iff.1 hs₃
  obtain ⟨rs, ts₅, rfl, hrest, hs₅⟩ := List.map_eq_append_iff.1 hs₄
  obtain ⟨closing, after, rfl, hclosing, hafter⟩ := List.map_eq_cons_iff.1 hs₅
  exact ⟨before, hd, opening, cs, rs, closing, after, rfl, hopening, hclosing, hhead.symm,
    hconstants.symm, hrest.symm, hafter.symm⟩

theorem TypeDecl.Placed.partition {ts : Tokens} {head constants rest behind : List Symbol}
    {d : RawType} (h : d.Placed ts.symbols head constants rest behind) (hts : Ordered ts.list)
    (text : Extent → String) : ∃ opening constants rest closing,
      (d.map ts.span text).Partition ts.list opening constants rest closing := by
  obtain ⟨before, hd, opening, cs, rs, closing, after, hl, hopening, hclosing, rfl, rfl, rfl, rfl⟩ :=
    tokens_of_braced h.text
  -- The same tokens, cut in front of the declaration, of its body and of its members.
  have hdecl : ts.list = before ++ ((hd ++ opening :: (cs ++ rs) ++ [closing]) ++ after) := by
    simp [hl]
  have hbody : ts.list = (before ++ hd) ++ ((opening :: (cs ++ rs) ++ [closing]) ++ after) := by
    simp [hl]
  have hmembers : ts.list = (before ++ hd ++ opening :: cs) ++ (rs ++ closing :: after) := by
    simp [hl]
  have hspan : Covers (hd ++ opening :: (cs ++ rs) ++ [closing]) (ts.span d.span) := by
    rw [h.span]
    simpa [braced] using Tokens.covers_span hdecl (by simp)
  have hbraces : ts.span d.body = opening.span.join closing.span := by
    rw [h.body]
    simpa [braced] using Tokens.span_eq_join hbody rfl List.getLast?_concat
  have hwithin : (opening.span.join closing.span).Within (ts.span d.span) ∧
      (opening.span.join closing.span).stop = (ts.span d.span).stop := by
    obtain ⟨first, last, hf, hlast, hjoin⟩ := hspan
    obtain rfl : closing = last := by simpa only [List.getLast?_concat, Option.some.injEq] using hlast
    rw [hdecl] at hts
    have hle := hts.right.left.start_le_of_head? hf (t := opening) (by simp)
    rw [hjoin]
    exact ⟨⟨hle, le_refl _⟩, rfl⟩
  have hcut := h.tiles.cutInto hmembers (by simp) (by simp)
  have hrest : Ordered rs := by
    rw [hmembers] at hts
    exact hts.right.left
  refine ⟨opening, cs, rs, closing, {
    tokens := ⟨before ++ hd, after, by simp [hl]⟩
    braces := ⟨hopening, hclosing⟩
    matched := by simpa using h.matched
    constantSection := by simpa using h.constantSection
    body := by simpa using hbraces
    within := by simpa [hbraces] using hwithin
    ends := ?_
    nonempty := ?_
    ordered := ?_
    covered := ?_ }⟩
  · simpa using hcut.join
  · simpa using hcut.start_lt_stop hrest
  · simpa [List.pairwise_map] using hcut.pairwise hrest
  · intro t ht
    have hone := hcut.countP_eq hrest t ht
    simpa [List.countP_map, Function.comp_def] using hone

theorem ordered_of_tokenize {source : List Char} {ts : Tokens} (h : tokenize source = .ok ts) :
    Ordered ts.list :=
  have hspread := (spread_of_tokenize h).1
  ⟨hspread.start_lt_stop, hspread.pairwise⟩

theorem parse_of_tokenize {source : List Char} {ts : Tokens} (h : tokenize source = .ok ts) :
    parse source = (Reading.mk source ts ts.symbols).next.1 := by
  rw [parse, Reading.start, h]
  rfl

theorem file_of_parse {source : List Char} {u : SourceUnit} (h : parse source = .ok u) :
    ∃ ts v t, tokenize source = .ok ts ∧ Rule.file ts.symbols = .ok v t ∧
      u = (Reading.mk source ts ts.symbols).located v := by
  unfold parse Reading.start at h
  cases hts : tokenize source with
  | error e =>
    rw [hts] at h
    cases h
  | ok ts =>
    rw [hts] at h
    have hnext : (Reading.mk source ts ts.symbols).next.1 = .ok u := h
    unfold Reading.next at hnext
    split at hnext
    next v t hfile =>
      cases hnext
      exact ⟨ts, v, t, rfl, hfile, rfl⟩
    next => cases hnext

/-- In a text that is accepted each body is cut into its members, and the whole into its types and what
may stand between them. -/
theorem parse_partition {source : List Char} {u : SourceUnit} (h : parse source = .ok u) :
    ∃ ts, tokenize source = .ok ts ∧
      (∀ d ∈ u.types, ∀ e, d.Holds e → ∃ opening constants rest closing,
        e.Partition ts.list opening constants rest closing) ∧
      CutInto Between ts.list (u.types.map (·.span)) ∧
      ∀ t ∈ ts.list, (∀ d ∈ u.types, ¬ t.span.Within d.span) →
        ∃ before part behind, ts.list = before ++ (part ++ behind) ∧ t ∈ part ∧
          Between (part.map (·.symbol)) := by
  obtain ⟨ts, v, t, hts, hfile, rfl⟩ := file_of_parse h
  obtain ⟨_, hparts, hlaid⟩ := Rule.file_laid hfile
  have hordered := ordered_of_tokenize hts
  have hall : ts.list = [] ++ ts.list := rfl
  have hcut : CutInto Between ts.list (((Reading.mk source ts ts.symbols).located v).types.map (·.span)) := by
    simpa [Reading.located, CompilationUnit.map, Function.comp_def] using hparts.cutInto hall rfl
  refine ⟨ts, hts, fun d hd e he => ?_, hcut, fun t ht hout => ?_⟩
  · obtain ⟨d', hd', rfl⟩ := List.mem_map.1 hd
    obtain ⟨e', he', rfl⟩ := he.of_map
    obtain ⟨head, constants, rest, behind, hplaced⟩ := hlaid d' hd' e' he'
    exact hplaced.partition hordered _
  · have hzero : (((Reading.mk source ts ts.symbols).located v).types.map (·.span)).countP
        (t.span.Within ·) = 0 := by
      simpa [List.countP_eq_zero] using hout
    obtain hone | ⟨_, hgap⟩ := hcut.countP_eq hordered t ht
    · rw [hzero] at hone
      cases hone
    · exact hgap

open Written

/-- `; enum Box { item ; item item ; class item { } }`. -/
def boxedEnum : List Lexeme :=
  [.mark .semicolon, .keyword .enum, Name.box.lexeme, .opening .curly, Name.item.lexeme,
    .mark .semicolon, Name.item.lexeme, Name.item.lexeme, .mark .semicolon, .keyword .class,
    Name.item.lexeme, .opening .curly, .closing .curly, .closing .curly]

theorem parse_partition_boxedEnum : ∃ u ts, parse (write boxedEnum) = .ok u ∧
    u.types.map (·.kind) = [.enum] ∧ tokenize (write boxedEnum) = .ok ts ∧
    (∀ d ∈ u.types, ∀ e, d.Holds e → ∃ opening constants rest closing,
      e.Partition ts.list opening constants rest closing) ∧
    CutInto Between ts.list (u.types.map (·.span)) := by
  obtain ⟨v, hfile, hkinds⟩ : ∃ v, Rule.file (symbols boxedEnum) = .ok v [] ∧
      v.types.map (·.kind) = [.enum] := ⟨_, by cbv, rfl⟩
  have hp : parse (write boxedEnum) = .ok ((reading boxedEnum).located v) := by
    rw [parse_write_eq, Reading.next, reading, hfile]
  have hu : ((reading boxedEnum).located v).types.map (·.kind) = [.enum] := by
    simpa [Reading.located, CompilationUnit.map, Function.comp_def] using hkinds
  obtain ⟨ts, hts, hbodies, hcut, _⟩ := parse_partition hp
  exact ⟨_, ts, hp, hu, hts, hbodies, hcut⟩

end MemberOrder
