import MemberOrder.Proofs.Check.Payloads
import MemberOrder.Proofs.Declaration.Edits
/-! Two texts, the second on the lines below the first. A text among others is read as it is by itself, up to
places (`items_embedded`); so what is read of both, and what is found, is what is read and found of the first and
then of the second, whose places are further down. Main statement: `parse_append_feed`. -/
namespace MemberOrder

section Embedded

open Rule

variable {σ : Type} {w bs : List Piece} {f f' : Extent → σ}

def Edit.putBehind (h : ∀ {n k}, k < n → n ≤ (heard w).length →
    f ⟨n, k⟩ = f' ⟨n + (heard bs).length, k + (heard bs).length⟩) : Edit Unit σ w where
  turns es ps ps' := es = [] ∧ ps' = ps ++ bs
  place := f
  place' := f'
  gone _ _ _ := false
  marks _ _ _ := []
  keep _ _ _ h := ⟨h.1, by rw [h.2]; simp⟩
  place_eq := by
    intro es es' ps ps' qs qs' hs ht hw hlt
    rw [hs.2, ht.2, heard_append, heard_append, List.length_append, List.length_append]
    exact h hlt (hw.filterMap _).length_le
  first_eq := by
    intro es ps ps' hs hw hne
    have hpos := List.length_pos_iff.2 hne
    have hpred : (heard ps).length - 1 + (heard bs).length =
        (heard ps).length + (heard bs).length - 1 := by omega
    rw [hs.2, heard_append, List.length_append, ← hpred]
    exact h (by omega) (hw.filterMap _).length_le
  leaf _ h ht _ _ := .inr ⟨rfl, _, h.closes, ht.1, by rw [ht.2]; simp⟩

theorem items_embedded (f f' : Extent → σ) (bs : List Piece) {items : List FileItem}
    {v : List Symbol} (hitems : many fileItem? (heard w) = .ok items v)
    (h : ∀ {n k}, k < n → n ≤ (heard w).length →
      f ⟨n, k⟩ = f' ⟨n + (heard bs).length, k + (heard bs).length⟩) :
    ∃ items', Chain fileItem? (heard (w ++ bs)) items' (heard bs) ∧
      items'.filterMap FileItem.package? = items.filterMap FileItem.package? ∧
      ∀ as, (items'.filterMap FileItem.type?).map (TypeDecl.map f' (textIn (as ++ (w ++ bs)))) =
        (items.filterMap FileItem.type?).map (TypeDecl.map f (textIn w)) := by
  have hend : (Edit.putBehind h).At [] [] (behind 0 w ++ bs) := ⟨List.nil_suffix, rfl, rfl⟩
  obtain ⟨g, hwhole, items', hchain, hpackages, htypes⟩ :=
    Edit.items_follow hitems (List.suffix_refl _) hend
  have hw : g ++ (behind 0 w ++ bs) = w ++ bs := by
    have hturns := hwhole.2.2
    rwa [behind_of_le (le_refl _)] at hturns
  have hbs : heard (behind 0 w ++ bs) = heard bs := by
    have hnone : heard (behind 0 w) = [] := heard_behind List.nil_suffix
    rw [heard_append, hnone, List.nil_append]
  rw [hw, hbs] at hchain
  rw [hw] at htypes
  refine ⟨items', hchain, hpackages, fun as => (htypes as).trans (List.map_congr_left fun d _ => ?_)⟩
  exact congrArg (TypeDecl.map f (textIn w)) (TypeDecl.without_eq_self (fun _ _ _ => rfl) d)

end Embedded

def Position.below (s : List Char) (p : Position) : Position :=
  ⟨p.offset + (byteCount s + 1), p.line + (s.count '\n' + 1), p.column⟩

def Span.below (s : List Char) (a : Span) : Span :=
  ⟨a.start + (byteCount s + 1), a.stop + (byteCount s + 1), a.line + (s.count '\n' + 1), a.column⟩

def Token.below (s : List Char) (t : Token) : Token :=
  { t with span := t.span.below s }

def ParseError.below (s : List Char) (e : ParseError) : ParseError :=
  ⟨e.cause, e.span.below s⟩

section Below

variable (s : List Char)

theorem Position.advance_below (p : Position) (c : Char) :
    (p.below s).advance c = (p.advance c).below s := by
  unfold advance
  split
  · simp only [below, mk.injEq, and_true]
    omega
  · simp only [below, mk.injEq, and_true]
    omega

theorem Position.after_below (p : Position) (t : List Char) :
    (p.below s).after t = (p.after t).below s := by
  induction t generalizing p with
  | nil => rfl
  | cons c t ih => rw [after_cons, after_cons, advance_below, ih]

theorem Position.start_after_feed : start.after (s ++ ['\n']) = start.below s := by
  have hfeed : byteCount ['\n'] = 1 := rfl
  rw [start_after, byteCount_append, hfeed]
  simp [below, start, List.rtakeWhile_concat_neg]

theorem tokensFrom_below (p : Position) (ps : List Piece) :
    tokensFrom (p.below s) ps = (tokensFrom p ps).map (Token.below s) := by
  fun_induction tokensFrom p ps with
  | case1 => rfl
  | case2 p text ps ih => rw [tokensFrom, Position.after_below, ih]
  | case3 p x text ps ih =>
    rw [tokensFrom, Position.after_below, ih]
    rfl

end Below

section Pieces

variable {s : List Char} {fs w : List Piece} (hfs : joined fs = s ++ ['\n'])

include hfs

theorem spanAt_below {n : Nat} (hn : n ≤ (heard w).length) :
    (Tokens.ofPieces (fs ++ w)).spanAt n = ((Tokens.ofPieces w).spanAt n).below s := by
  have hlist : (Tokens.ofPieces (fs ++ w)).list =
      tokensFrom .start fs ++ (Tokens.ofPieces w).list.map (Token.below s) := by
    rw [Tokens.ofPieces, tokensFrom_append, hfs, Position.start_after_feed, tokensFrom_below]
    rfl
  have hfinish : (Tokens.ofPieces (fs ++ w)).finish = (Tokens.ofPieces w).finish.below s := by
    rw [Tokens.ofPieces, joined_append, Position.after_append, hfs, Position.start_after_feed,
      Position.after_below]
    rfl
  have hlength : (Tokens.ofPieces w).list.length = (heard w).length := length_tokensFrom w _
  rw [Tokens.spanAt, hlist, List.length_append, List.length_map,
    Nat.add_sub_assoc (hn.trans hlength.ge), List.getElem?_append_right (Nat.le_add_right _ _),
    Nat.add_sub_cancel_left, List.getElem?_map, Tokens.spanAt]
  cases (Tokens.ofPieces w).list[(Tokens.ofPieces w).list.length - n]? with
  | none =>
    simp only [Option.map_none, Tokens.finishSpan, hfinish]
    rfl
  | some t => rfl

theorem span_below {n k : Nat} (hlt : k < n) (hn : n ≤ (heard w).length) :
    (Tokens.ofPieces (fs ++ w)).span ⟨n, k⟩ = ((Tokens.ofPieces w).span ⟨n, k⟩).below s := by
  rw [Tokens.span, Tokens.span, spanAt_below hfs hn,
    spanAt_below hfs (Nat.le_trans hlt hn)]
  rfl

end Pieces

theorem span_putBehind {w : List Piece} (bs : List Piece) {n k : Nat} (hlt : k < n)
    (hn : n ≤ (heard w).length) : (Tokens.ofPieces w).span ⟨n, k⟩ =
      (Tokens.ofPieces (w ++ bs)).span ⟨n + (heard bs).length, k + (heard bs).length⟩ := by
  obtain ⟨as, g, ds, rfl, hg, rfl, rfl⟩ := exists_stretch hlt hn
  have hwide := hg.span_eq as (ds ++ bs)
  have hunread : (heard (g ++ (ds ++ bs))).length = (heard (g ++ ds)).length + (heard bs).length := by
    simp [Nat.add_assoc]
  have hleft : (heard (ds ++ bs)).length = (heard ds).length + (heard bs).length := by simp
  rw [hunread, hleft] at hwide
  rw [hg.span_eq, List.append_assoc, List.append_assoc, hwide]

open Rule in
theorem file_putBehind (bs : List Piece) {w : List Piece} {u : CompilationUnit Extent Extent} {v : List Symbol}
    (h : file (heard w) = .ok u v) : ∃ ds,
      ds.map (TypeDecl.map (Tokens.ofPieces (w ++ bs)).span (textIn (w ++ bs))) =
        u.types.map (TypeDecl.map (Tokens.ofPieces w).span (textIn w)) ∧
      file (heard (w ++ bs)) = match file (heard bs) with
        | .ok u' v' => .ok ⟨u'.package?.or u.package?, ds ++ u'.types⟩ v'
        | .error e v' => .error e v' := by
  obtain ⟨items, hitems, rfl⟩ := file_eq_ok_iff.1 h
  obtain ⟨items', hchain, hpackages, htypes⟩ := items_embedded _ _ bs hitems (span_putBehind bs)
  refine ⟨_, htypes [], ?_⟩
  have hbind (s : List Symbol) : file s = match many fileItem? s with
      | .ok items t => .ok ⟨(items.filterMap FileItem.package?).getLast?, items.filterMap FileItem.type?⟩ t
      | .error e t => .error e t := by
    change EStateM.bind _ _ s = _
    unfold EStateM.bind
    cases many fileItem? s <;> rfl
  rw [hbind, hbind, hchain.many_eq]
  cases many fileItem? (heard bs) with
  | ok is t => simp only [List.filterMap_append, List.getLast?_append, hpackages]
  | error e t => rfl

open Rule in
theorem types_putBefore {s : List Char} {fs w : List Piece} (hfs : joined fs = s ++ ['\n'])
    {u : CompilationUnit Extent Extent} {v : List Symbol} (h : file (heard w) = .ok u v) :
    u.types.map (TypeDecl.map (Tokens.ofPieces (fs ++ w)).span (textIn (fs ++ w))) =
      (u.types.map (TypeDecl.map (Tokens.ofPieces w).span (textIn w))).map
        (TypeDecl.map (Span.below s) id) := by
  obtain ⟨items, hitems, rfl⟩ := file_eq_ok_iff.1 h
  obtain ⟨items', hchain, _, htypes⟩ := items_embedded
    (fun e => ((Tokens.ofPieces w).span e).below s) (Tokens.ofPieces (fs ++ w)).span [] hitems
    fun {n k} hlt hn => (span_below hfs hlt hn).symm
  have hending : many fileItem? [] = .ok [] [] := many_nil rfl
  rw [heard_nil, List.append_nil] at hchain
  have hitems' := hchain.many_eq
  rw [hending, hitems] at hitems'
  obtain ⟨rfl, _⟩ : items = items' ∧ v = [] := by simpa using hitems'
  have htypes := htypes fs
  rw [List.append_nil] at htypes
  rw [htypes, List.map_map]
  exact List.map_congr_left fun d _ =>
    (TypeDecl.map_map (Tokens.ofPieces w).span (Span.below s) (textIn w) id d).symm

theorem parse_below {s t : List Char} {u : SourceUnit} (h : parse s = .ok u) :
    parse (s ++ '\n' :: t) = match parse t with
      | .ok v => .ok ⟨v.package?.or u.package?,
          u.types ++ v.types.map (TypeDecl.map (Span.below s) id)⟩
      | .error e => .error (e.below s) := by
  obtain ⟨ps, v, hps, hfile, rfl⟩ := pieces_of_parse h
  have hfeed := scan_append_feed hps t
  have hs : joined (ps ++ [⟨none, ['\n']⟩]) = s ++ ['\n'] := by
    rw [joined_append, (tokenize_of_pieces hps).2]
    rfl
  cases hqs : scan t with
  | mk qs open? =>
    rw [hqs] at hfeed
    cases open? with
    | some o =>
      have hscan : scan (s ++ '\n' :: t) = ⟨ps ++ [⟨none, ['\n']⟩] ++ qs, some o⟩ := hfeed
      rw [parse_of_open hscan, parse_of_open hqs, joined_append, hs, Position.after_append,
        Position.start_after_feed, Position.after_below, Position.after_below]
      rfl
    | none =>
      have hscan : scan (s ++ '\n' :: t) = ⟨ps ++ [⟨none, ['\n']⟩] ++ qs, none⟩ := hfeed
      obtain ⟨ds, hds, hwhole⟩ := file_putBehind (⟨none, ['\n']⟩ :: qs) hfile
      have hbs : heard (⟨none, ['\n']⟩ :: qs) = heard qs := heard_cons_none _ rfl
      have hsplit : ps ++ ⟨none, ['\n']⟩ :: qs = ps ++ [⟨none, ['\n']⟩] ++ qs := by simp
      rw [hbs, hsplit] at hwhole
      rw [hsplit] at hds
      cases hrest : Rule.file (heard qs) with
      | ok v' r =>
        rw [hrest] at hwhole
        rw [parse_of_file hscan hwhole, parse_of_file hqs hrest]
        simp only [CompilationUnit.map, List.map_append, hds, types_putBefore hs hrest]
      | error e r =>
        rw [hrest] at hwhole
        have hle := Rule.Drops.file.inside hrest
        rw [parse_of_scan hscan, parse_of_scan hqs, Reading.next, Reading.next]
        simp only [Reading.ofPieces, hwhole, hrest, spanAt_below hs hle]
        rfl

/-- A text that is read, and another one on the lines below it. -/
theorem parse_append_feed {s t : String} {u : SourceUnit} (h : parse s.toList = .ok u) (path : Path) :
    match parse t.toList with
    | .ok v =>
      parse (s ++ "\n" ++ t).toList = .ok ⟨v.package?.or u.package?,
        u.types ++ v.types.map (TypeDecl.map (Span.below s.toList) id)⟩ ∧
      ∃ vs ws, checkSource path s = .ok vs ∧ checkSource path t = .ok ws ∧
        checkSource path (s ++ "\n" ++ t) =
          .ok (vs ++ ws.map (Violation.moved (Span.below s.toList)))
    | .error e =>
      parse (s ++ "\n" ++ t).toList = .error (e.below s.toList) ∧
      checkSource path (s ++ "\n" ++ t) = .error (.unparsed path (e.below s.toList)) := by
  have htext : (s ++ "\n" ++ t).toList = s.toList ++ '\n' :: t.toList := by simp
  have hparse := parse_below (t := t.toList) h
  rw [← htext] at hparse
  cases ht : parse t.toList with
  | ok v =>
    rw [ht] at hparse
    refine ⟨hparse, _, _, checkSource_of_parse h path, checkSource_of_parse ht path, ?_⟩
    rw [checkSource_of_parse hparse path]
    have hmoved := CompilationUnit.findings_map (Span.below s.toList) id v
    simp only [CompilationUnit.findings, CompilationUnit.map, List.flatMap_append] at hmoved ⊢
    rw [hmoved]
  | error e =>
    rw [ht] at hparse
    refine ⟨hparse, ?_⟩
    rw [checkSource, hparse]

open Written in
/-- A class whose field is late, twice, and the same class with a bracket that is loose below it. -/
theorem parse_append_feed_boxWith :
    let box := String.ofList (write (boxWith brace))
    ∃ u e, parse box.toList = .ok u ∧ parse (box ++ "\n" ++ box).toList = .ok ⟨u.package?.or u.package?,
        u.types ++ u.types.map (TypeDecl.map (Span.below box.toList) id)⟩ ∧
      parse "\x7d".toList = .error e ∧
      parse (box ++ "\n" ++ "\x7d").toList = .error (e.below box.toList) := by
  intro box
  obtain ⟨v, hfile⟩ : ∃ v, Rule.file (symbols (boxWith brace)) = .ok v [] := ⟨_, by cbv⟩
  have hbox : parse box.toList = .ok ((reading (boxWith brace)).located v) := by
    rw [String.toList_ofList, parse_write_eq, Reading.next, reading, hfile]
  have hscan : scan ['\x7d'] = ⟨[⟨some (.closing .curly), ['\x7d']⟩], none⟩ :=
    scan_of_head rfl scan_nil
  obtain ⟨r, t, hread⟩ : ∃ r t, Rule.file [.closing .curly] = .error r t := ⟨_, _, by cbv⟩
  obtain ⟨e, hloose⟩ : ∃ e, parse "\x7d".toList = .error e := by
    have hnext := parse_of_scan hscan
    rw [Reading.ofPieces, Reading.next, show heard _ = [.closing .curly] from rfl, hread] at hnext
    exact ⟨_, hnext⟩
  have htwice := parse_append_feed (t := box) hbox []
  have hrefused := parse_append_feed (t := "\x7d") hbox []
  rw [hbox] at htwice
  rw [hloose] at hrefused
  exact ⟨_, e, hbox, htwice.1, hloose, hrefused.1⟩

end MemberOrder
