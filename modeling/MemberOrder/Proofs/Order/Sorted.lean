import MemberOrder.Check
import MemberOrder.Proofs.Declaration.Spans
import MemberOrder.Proofs.Order.Gather
/-! The findings in a text that is accepted come in the order of their places, no two of which overlap.
So sorting leaves them as they are: main statements `checkSource_of_parse`, `check_in_order`. -/
namespace MemberOrder

variable {σ σ' τ τ' : Type}

def Member.isLate : About σ τ Bool := fun ordered earlier m =>
  ordered && m.kind?.any fun k => (earlier.filterMap kind?).any (k < ·)

def Member.latePlace : About σ τ (List σ) := fun ordered earlier m =>
  if m.isLate ordered earlier then [m.span] else []

theorem Member.isLate_map (f : σ → σ') (g : τ → τ') (ordered : Bool) (earlier : List (Member σ τ))
    (m : Member σ τ) : (m.map f g).isLate ordered (earlier.map (Member.map f g)) =
      m.isLate ordered earlier := by
  simp [isLate, List.filterMap_map]

theorem Member.latePlace_map (f : σ → σ') (g : τ → τ') (ordered : Bool)
    (earlier : List (Member σ τ)) (m : Member σ τ) :
    (m.map f g).latePlace ordered (earlier.map (Member.map f g)) =
      (m.latePlace ordered earlier).map f := by
  unfold latePlace
  rw [isLate_map, span_map]
  split <;> rfl

theorem Member.position_findingIn (ordered : Bool) (earlier : List (Member Span τ))
    (m : Member Span τ) :
    (findingIn ordered earlier m).map (·.position) = m.latePlace ordered earlier := by
  cases ordered with
  | false => rfl
  | true =>
    cases hk : m.kind? with
    | none => simp [findingIn, finding?, latePlace, isLate, hk]
    | some k =>
      simp only [findingIn, finding?, latePlace, isLate, hk, if_true, Option.bind_some,
        Option.any_some, Bool.true_and]
      change _ = if (kinds earlier).any (k < ·) then _ else _
      split
      next hlate =>
        obtain ⟨latest, hlatest⟩ : ∃ latest, (kinds earlier).max? = some latest := by
          cases h : (kinds earlier).max? with
          | some latest => exact ⟨latest, rfl⟩
          | none => simp [List.max?_eq_none_iff.1 h] at hlate
        rw [hlatest]
        rfl
      next => rfl

def CompilationUnit.latePlaces (u : CompilationUnit σ τ) : List σ :=
  u.types.flatMap (TypeDecl.gather Member.latePlace)

theorem CompilationUnit.latePlaces_map (f : σ → σ') (g : τ → τ') (u : CompilationUnit σ τ) :
    (u.map f g).latePlaces = u.latePlaces.map f := by
  simp only [latePlaces, map, List.flatMap_map, List.map_flatMap, TypeDecl.gather_map,
    TypeDecl.map_gather, Member.latePlace_map]

theorem CompilationUnit.position_findings (u : CompilationUnit Span τ) :
    u.findings.map (·.position) = u.latePlaces := by
  simp only [findings, latePlaces, List.map_flatMap, TypeDecl.findings_eq_gather,
    TypeDecl.map_gather, Member.position_findingIn]

/-- Extents that are not empty, one behind the other, between where `n` symbols are left and where
`k` are. -/
inductive Extent.Descend : Nat → List Extent → Nat → Prop
  | nil {n k} (h : k ≤ n) : Descend n [] k
  | cons {n k e es} (hn : e.unread ≤ n) (hlt : e.left < e.unread) (hes : Descend e.left es k) :
      Descend n (e :: es) k

namespace Extent.Descend

variable {n m k : Nat} {es fs : List Extent}

theorem weaken (h : Descend n es k) (hm : n ≤ m) : Descend m es k := by
  cases h with
  | nil h => exact .nil (by omega)
  | cons hn hlt hes => exact .cons (by omega) hlt hes

theorem append (hes : Descend n es m) (hfs : Descend m fs k) : Descend n (es ++ fs) k := by
  induction hes with
  | nil h => exact hfs.weaken h
  | cons hn hlt _ ih => exact .cons hn hlt (ih hfs)

theorem stop (h : Descend n es m) (hk : k ≤ m) : Descend n es k := by
  have hfs : Descend m [] k := .nil hk
  simpa using h.append hfs

theorem inside (h : Descend n es k) : ∀ e ∈ es, e.Inside n := by
  induction h with
  | nil => simp
  | cons hn hlt _ ih =>
    intro e he
    obtain rfl | he := List.mem_cons.1 he
    · exact ⟨hlt, hn⟩
    · obtain ⟨hlt', hle⟩ := ih e he
      exact ⟨hlt', by omega⟩

theorem pairwise (h : Descend n es k) : es.Pairwise fun a b => b.unread ≤ a.left := by
  induction h with
  | nil => exact .nil
  | cons _ _ hes ih => exact .cons (fun b hb => (hes.inside b hb).2) ih

end Extent.Descend

def Member.TellsPlaces (tell : About Extent Extent (List Extent)) : Prop :=
  ∀ ordered earlier m, tell ordered earlier m = [] ∨ tell ordered earlier m = [m.span]

theorem Member.tellsPlaces_latePlace : TellsPlaces latePlace := by
  intro ordered earlier m
  unfold latePlace
  split
  · exact .inr rfl
  · exact .inl rfl

section Places

variable {tell : About Extent Extent (List Extent)} (htell : Member.TellsPlaces tell)

include htell

theorem Member.Tiles.descend_gatherAfter {n k : Nat} {xs : List RawMember} (h : Tiles n xs k)
    (hnested : ∀ d, .type d ∈ xs → Extent.Descend d.span.unread (d.gather tell) d.span.left)
    (ordered : Bool) (earlier : List RawMember) :
    Extent.Descend n (Member.gatherAfter tell ordered earlier xs) k := by
  induction h generalizing earlier with
  | nil => exact .nil (le_refl _)
  | @cons n k l x xs hlt hx hxs ih =>
    rw [Member.gatherAfter]
    refine .append ?_ (ih (fun d hd => hnested d (List.mem_cons_of_mem _ hd)) _)
    obtain hleaf | ⟨d, rfl⟩ := x.isLeaf_or
    · rw [hleaf.gather]
      obtain hnone | hplace := htell ordered earlier x
      · rw [hnone]
        exact .nil (by omega)
      · rw [hplace, hx.span]
        exact .cons (le_refl _) hlt (.nil (le_refl _))
    · have hd := hnested d List.mem_cons_self
      have hspan : d.span = ⟨n, k⟩ := hx.span
      rwa [hspan] at hd

theorem TypeDecl.Laid.descend_gather {w : List Symbol} {d : RawType} (h : d.Laid w) :
    Extent.Descend d.span.unread (d.gather tell) d.span.left := by
  induction d using TypeDecl.nested_induction with
  | h kind name m members body span ih =>
    obtain ⟨head, constants, rest, behind, hplaced⟩ := h _ .self
    have hnested (d : RawType) (hd : .type d ∈ members) :
        Extent.Descend d.span.unread (d.gather tell) d.span.left :=
      ih d hd fun e he => h e (.inner hd he)
    have hbody := hplaced.tiles.descend_gatherAfter htell hnested kind.isClassLike []
    rw [hplaced.span]
    refine (hbody.stop (Nat.le_succ _)).weaken ?_
    simp only [braced, List.length_append, List.length_cons]
    omega

theorem FileParts.descend_gather {s w : List Symbol} {ds : List RawType} (h : FileParts s ds)
    (hlaid : ∀ d ∈ ds, d.Laid w) :
    Extent.Descend s.length (ds.flatMap (TypeDecl.gather tell)) 0 := by
  induction h with
  | done => exact .nil (le_refl _)
  | between _ _ ih =>
    refine (ih hlaid).weaken ?_
    simp
  | @type c s d ds _ hd _ ih =>
    have hfirst := (hlaid d List.mem_cons_self).descend_gather htell
    rw [hd] at hfirst
    rw [List.flatMap_cons]
    exact hfirst.append (ih fun e he => hlaid e (List.mem_cons_of_mem _ he))

end Places

/-- On a later line, or on the same line behind it. -/
def Position.Precedes (p q : Position) : Prop :=
  p.line < q.line ∨ p.line = q.line ∧ p.column < q.column

theorem Position.precedes_after (p : Position) {s : List Char} (hs : s ≠ []) :
    p.Precedes (p.after s) := by
  have hadvance (p : Position) (c : Char) : p.Precedes (p.advance c) := by
    unfold advance Precedes
    split
    · exact .inl (Nat.lt_succ_self _)
    · exact .inr ⟨rfl, Nat.lt_succ_self _⟩
  induction s generalizing p with
  | nil => exact absurd rfl hs
  | cons c s ih =>
    rw [after_cons]
    have hc := hadvance p c
    by_cases hs' : s = []
    · rwa [hs', after_nil]
    · have hrest := ih (p.advance c) hs'
      unfold Precedes at hc hrest ⊢
      omega

namespace Span

theorem TrueTo.precedes {source : List Char} {a b : Span} (ha : a.TrueTo source)
    (hb : b.TrueTo source) (h : a.start < b.start) :
    a.line < b.line ∨ a.line = b.line ∧ a.column < b.column := by
  obtain ⟨s, s', hs, hstart, hline, hcolumn⟩ := ha.starts
  obtain ⟨t, t', ht, hstart', hline', hcolumn'⟩ := hb.starts
  obtain ⟨r, rfl⟩ : s <+: t := by
    have hprefix : s <+: source := ⟨s', hs.symm⟩
    obtain hst | ⟨r, rfl⟩ := List.prefix_or_prefix_of_prefix hprefix ⟨t', ht.symm⟩
    · exact hst
    · rw [byteCount_append] at hstart
      omega
  have hr : r ≠ [] := by
    rintro rfl
    simp only [List.append_nil] at hstart'
    omega
  have hprecedes := (Position.start.after s).precedes_after hr
  rw [← Position.after_append, Position.start_after, Position.start_after] at hprecedes
  rwa [hline, hcolumn, hline', hcolumn']

end Span

section Text

variable {source : List Char} {ts : Tokens}

theorem Ordered.stop_spanAt_le (h : Ordered ts.list) {i j : Nat} (hj : 0 < j) (hij : j < i)
    (hi : i ≤ ts.list.length) : (ts.spanAt i).stop ≤ (ts.spanAt j).start := by
  have hlt : ts.list.length - i < ts.list.length - j := by omega
  have hlast : ts.list.length - j < ts.list.length := by omega
  have hpair := List.pairwise_iff_getElem.1 h.pairwise _ _ (by omega) hlast hlt
  simpa [Tokens.spanAt, List.getElem?_eq_getElem, hlast, hlt.trans hlast] using hpair

theorem Extent.Descend.pairwise_span (h : Ordered ts.list) {es : List Extent} {k : Nat}
    (hes : Descend ts.list.length es k) :
    (es.map ts.span).Pairwise fun a b => a.stop ≤ b.start := by
  rw [List.pairwise_map]
  refine hes.pairwise.imp_of_mem fun {a b} ha hb hab => ?_
  have ha' := hes.inside a ha
  have hb' := hes.inside b hb
  exact h.stop_spanAt_le (by have := hb'.1; omega) (by omega) (by have := ha'.1; have := ha'.2; omega)

theorem span_nonempty (h : Ordered ts.list) {e : Extent} (he : e.Inside ts.list.length) :
    (ts.span e).start < (ts.span e).stop := by
  obtain ⟨pre, g, post, hl, hcovers⟩ := exists_covers he
  obtain ⟨first, last, hf, hlast, hspan⟩ := hcovers
  rw [hl] at h
  have hfirst := List.mem_of_head? hf
  have hlt := h.right.left.nonempty first hfirst
  have hle := h.right.left.stop_le_of_getLast? hlast hfirst
  rw [hspan]
  exact hlt.trans_le hle

end Text

/-- The places of the findings in a text that is accepted: stretches of the text, one behind the other,
no two of which overlap. -/
structure PlacesInOrder (source : List Char) (as : List Span) : Prop where
  trueTo : ∀ a ∈ as, a.TrueTo source
  nonempty : ∀ a ∈ as, a.start < a.stop
  pairwise : as.Pairwise fun a b => a.stop ≤ b.start

theorem places_inOrder {source : List Char} {u : SourceUnit} (h : parse source = .ok u) :
    ∃ (ts : Tokens) (v : CompilationUnit Extent Extent) (f : Extent → String), u = v.map ts.span f ∧
      ∀ tell, Member.TellsPlaces tell →
        PlacesInOrder source ((v.types.flatMap (TypeDecl.gather tell)).map ts.span) := by
  obtain ⟨ts, v, t, hts, hfile, rfl⟩ := file_of_parse h
  obtain ⟨_, hparts, hlaid⟩ := Rule.file_laid hfile
  have hordered := ordered_of_tokenize hts
  refine ⟨ts, v, _, rfl, fun tell htell => ?_⟩
  have hdescend := hparts.descend_gather htell hlaid
  rw [ts.length_symbols] at hdescend
  exact {
    trueTo := by
      intro a ha
      obtain ⟨e, he, rfl⟩ := List.mem_map.1 ha
      exact span_trueTo hts (hdescend.inside e he)
    nonempty := by
      intro a ha
      obtain ⟨e, he, rfl⟩ := List.mem_map.1 ha
      exact span_nonempty hordered (hdescend.inside e he)
    pairwise := hdescend.pairwise_span hordered }

theorem latePlaces_inOrder {source : List Char} {u : SourceUnit} (h : parse source = .ok u) :
    PlacesInOrder source u.latePlaces := by
  obtain ⟨ts, v, f, rfl, hplaces⟩ := places_inOrder h
  rw [CompilationUnit.latePlaces_map]
  exact hplaces _ Member.tellsPlaces_latePlace

theorem spans_inOrder {source : List Char} {u : SourceUnit} (h : parse source = .ok u) :
    PlacesInOrder source (u.types.flatMap (TypeDecl.gather fun _ _ m => [m.span])) := by
  obtain ⟨ts, v, f, rfl, hplaces⟩ := places_inOrder h
  have hspans := hplaces (fun _ _ m => [m.span]) fun _ _ _ => .inr rfl
  simpa only [CompilationUnit.map, List.flatMap_map, List.map_flatMap, TypeDecl.gather_map,
    TypeDecl.map_gather, Member.span_map, List.map_cons, List.map_nil] using hspans

def Violation.Precedes (v w : Violation) : Prop :=
  v.position.start < w.position.start ∧
    (v.position.line < w.position.line ∨
      v.position.line = w.position.line ∧ v.position.column < w.position.column)

theorem Violation.Precedes.notAfter {v w : Violation} (h : v.Precedes w) : v.notAfter w = true := by
  have hplace := h.2
  simp only [Violation.notAfter, Bool.or_eq_true, Bool.and_eq_true, decide_eq_true_eq]
  omega

/-- The line and the column alone tell a finding from those behind it. -/
theorem Violation.Precedes.ne {v w : Violation} (h : v.Precedes w) :
    (v.position.line, v.position.column) ≠ (w.position.line, w.position.column) := by
  intro heq
  obtain ⟨hline, hcolumn⟩ := Prod.mk.injEq _ _ _ _ ▸ heq
  have hplace := h.2
  omega

theorem findings_precede {source : List Char} {u : SourceUnit} (h : parse source = .ok u) :
    u.findings.Pairwise Violation.Precedes := by
  have hplaces := latePlaces_inOrder h
  rw [← u.position_findings] at hplaces
  have hpairwise := List.pairwise_map.1 hplaces.pairwise
  refine hpairwise.imp_of_mem fun {v w} hv hw hvw => ?_
  have hv' := List.mem_map_of_mem (f := Violation.position) hv
  have hw' := List.mem_map_of_mem (f := Violation.position) hw
  have hlt := (hplaces.nonempty _ hv').trans_le hvw
  exact ⟨hlt, (hplaces.trueTo _ hv').precedes (hplaces.trueTo _ hw') hlt⟩

theorem sortByPosition_findings {source : List Char} {u : SourceUnit} (h : parse source = .ok u) :
    sortByPosition u.findings = u.findings :=
  List.mergeSort_of_pairwise ((findings_precede h).imp Violation.Precedes.notAfter)

theorem CompilationUnit.check_findings (u : CompilationUnit Span τ) : u.check = .ok u.findings := by
  have h : u.steps.foldlM Traversal.step .start = .ok ⟨.empty, u.findings⟩ :=
    TypeDecl.runs_flatMap u.types []
  rw [check, h]
  rfl

theorem checkSource_of_parse {source : String} {u : SourceUnit} (h : parse source.toList = .ok u)
    (path : Path) : checkSource path source = .ok u.findings := by
  simp only [checkSource, h, u.check_findings, sortByPosition_findings h]

/-- What the judge collects from a text that is accepted is in order, each finding at a line and column
of its own. Sorting has nothing to do, and it is the answer for the text. -/
theorem check_in_order {source : String} {u : SourceUnit} (h : parse source.toList = .ok u) :
    ∃ vs, u.check = .ok vs ∧ vs.Pairwise Violation.Precedes ∧
      (vs.map fun v => (v.position.line, v.position.column)).Nodup ∧
      sortByPosition vs = vs ∧ ∀ path, checkSource path source = .ok vs := by
  have hprecede := findings_precede h
  refine ⟨u.findings, u.check_findings, hprecede, ?_, sortByPosition_findings h, checkSource_of_parse h⟩
  rw [List.Nodup, List.pairwise_map]
  exact hprecede.imp Violation.Precedes.ne

section Written

open Written

def boxed (inside : List Lexeme) : List Lexeme :=
  [.keyword .class, Name.box.lexeme, .opening .curly, Name.box.lexeme, .opening .round,
    .closing .round, .opening .curly, .closing .curly] ++ inside ++ [.closing .curly]

def lateItem : List Lexeme := [Name.item.lexeme, Name.item.lexeme, .mark .semicolon]

/-- The finding in the nested class is made between those in the class around it. -/
theorem check_in_order_boxed :
    let source := String.ofList (write (boxed (lateItem ++ boxed lateItem ++ lateItem)))
    ∃ u vs, parse source.toList = .ok u ∧ u.check = .ok vs ∧ vs.length = 3 ∧
      vs.Pairwise Violation.Precedes ∧ sortByPosition vs = vs ∧
      ∀ path, checkSource path source = .ok vs := by
  intro source
  obtain ⟨v, hfile, hlate⟩ : ∃ v,
      Rule.file (symbols (boxed (lateItem ++ boxed lateItem ++ lateItem))) = .ok v [] ∧
        v.latePlaces.length = 3 := ⟨_, by cbv, rfl⟩
  have hparse : parse source.toList =
      .ok ((reading (boxed (lateItem ++ boxed lateItem ++ lateItem))).located v) := by
    rw [String.toList_ofList, parse_write_of_file hfile]
  obtain ⟨vs, hcheck, hprecede, -, hsorted, hsource⟩ := check_in_order hparse
  refine ⟨_, vs, hparse, hcheck, ?_, hprecede, hsorted, hsource⟩
  rw [CompilationUnit.check_findings] at hcheck
  have hthree := congrArg List.length
    ((reading (boxed (lateItem ++ boxed lateItem ++ lateItem))).located v).position_findings
  rwa [List.length_map, Except.ok.inj hcheck, Reading.located, CompilationUnit.latePlaces_map,
    List.length_map, hlate] at hthree

end Written

end MemberOrder
