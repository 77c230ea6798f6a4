import MemberOrder.Proofs.Declaration.Bodies
import MemberOrder.Proofs.Declaration.Drops
/-! Every place that is handed out, with a token, in a tree or with an error, tells the truth about the
text. Main statement: `answers_trueTo`. -/
namespace MemberOrder

variable {σ σ' τ τ' : Type}

def Member.places (x : Member σ τ) : List σ :=
  x.span :: (x.modifiers?.bind (·.first?)).toList

def TypeDecl.places (d : TypeDecl σ τ) : List σ :=
  d.span :: d.body :: (d.modifiers.first?.toList ++ d.members.flatMap Member.places)

theorem Member.places_map (f : σ → σ') (g : τ → τ') (x : Member σ τ) :
    (x.map f g).places = x.places.map f := by
  cases x with
  | type d =>
    obtain ⟨kind, name, m, xs, body, span⟩ := d
    simp [places, modifiers?, Member.map, TypeDecl.map, Member.span, TypeDecl.span, TypeDecl.modifiers,
      Modifiers.map, Option.toList_map]
  | field | constructor | method | initializer | empty =>
    simp [places, modifiers?, Member.map, Member.span, Modifiers.map, Option.toList_map]

theorem TypeDecl.places_map (f : σ → σ') (g : τ → τ') (d : TypeDecl σ τ) :
    (d.map f g).places = d.places.map f := by
  have hmodifiers : (d.map f g).modifiers = d.modifiers.map f := by
    cases d
    rfl
  simp [places, hmodifiers, Modifiers.map, Option.toList_map, List.flatMap_map, List.map_flatMap,
    Member.places_map]

/-- The extent is not empty and lies in the last `n` symbols. -/
def Extent.Inside (n : Nat) (a : Extent) : Prop :=
  a.left < a.unread ∧ a.unread ≤ n

theorem Modifiers.Front.inside {n : Nat} {m : Modifiers Extent} (h : m.Front n) (hn : 0 < n) :
    ∀ a ∈ m.first?, a.Inside n := by
  intro a ha
  rw [h a ha]
  exact ⟨Nat.sub_lt hn Nat.one_pos, le_refl n⟩

theorem Member.Placed.inside {n k : Nat} {x : RawMember} (h : x.Placed n k) (hlt : k < n) :
    ∀ a ∈ x.places, a.Inside n := by
  intro a ha
  obtain rfl | ha := List.mem_cons.1 ha
  · rw [h.span]
    exact ⟨hlt, le_refl n⟩
  · obtain ⟨m, hm, ha⟩ := Option.bind_eq_some_iff.1 (Option.mem_toList.1 ha)
    exact (h.front m hm).inside (by omega) a ha

theorem Member.Tiles.inside {n k : Nat} {xs : List RawMember} (h : Tiles n xs k) :
    ∀ x ∈ xs, ∀ a ∈ x.places, a.Inside n := by
  induction h with
  | nil => simp
  | cons hlt hx hxs ih =>
    intro x hmem a ha
    obtain rfl | hmem := List.mem_cons.1 hmem
    · exact hx.inside hlt a ha
    · obtain ⟨hne, hle⟩ := ih x hmem a ha
      exact ⟨hne, by omega⟩

theorem TypeDecl.Placed.inside {w head constants rest behind : List Symbol} {d : RawType}
    (h : d.Placed w head constants rest behind) : ∀ a ∈ d.places, a.Inside w.length := by
  have hle := h.text.length_le
  have hspan := h.span
  have hbody := h.body
  simp only [braced, List.length_append, List.length_cons] at hle hspan hbody
  intro a ha
  obtain rfl | ha := List.mem_cons.1 ha
  · rw [hspan]
    exact ⟨by simp only; omega, by simpa only using hle⟩
  obtain rfl | ha := List.mem_cons.1 ha
  · rw [hbody]
    exact ⟨by simp only; omega, by simp only; omega⟩
  obtain ha | ha := List.mem_append.1 ha
  · have hfront := h.front.inside (by rw [hspan]; simp only; omega) a (Option.mem_toList.1 ha)
    rw [hspan] at hfront
    exact ⟨hfront.1, hfront.2.trans (by simpa only using hle)⟩
  · obtain ⟨x, hx, ha⟩ := List.mem_flatMap.1 ha
    obtain ⟨hne, hin⟩ := h.tiles.inside x hx a ha
    simp only [List.length_append, List.length_cons] at hin
    exact ⟨hne, by omega⟩

theorem Covers.trueTo {source : List Char} {g : List Token} {a : Span} (h : Covers g a)
    (hg : Ordered g) (htrue : ∀ t ∈ g, t.span.TrueTo source) : a.TrueTo source := by
  obtain ⟨first, last, hf, hl, rfl⟩ := h
  have hfirst := List.mem_of_head? hf
  have hle := hg.stop_le_of_getLast? hl hfirst
  have hlt := hg.nonempty first hfirst
  exact (htrue first hfirst).join (htrue last (List.mem_of_getLast? hl)) (by omega)

theorem scan_open {s text : List Char} {what : Construct} (h : (scan s).open? = some (what, text)) :
    joined (scan s).pieces ++ text <+: s := by
  fun_induction scan s with
  | case1 => cases h
  | case2 c s p rest hp ih =>
    rw [← (Head.append_of_piece hp).1]
    simpa [joined, Pieces.cons] using ih h
  | case3 c s what' text' hp =>
    have hcut := Head.of_cutFrom c s
    rw [hp] at hcut
    cases h
    exact hcut.1

def Answered {α : Type} (source : List Char) (good : α → Prop) : Except ParseError α → Prop
  | .ok a => good a
  | .error e => e.span.TrueTo source

def Tokens.TrueTo (source : List Char) (ts : Tokens) : Prop :=
  ∀ a ∈ ts.list.map (·.span) ++ [ts.finishSpan], a.TrueTo source

def CompilationUnit.TrueTo (source : List Char) (u : SourceUnit) : Prop :=
  ∀ d ∈ u.types, ∀ e, d.Holds e → ∀ a ∈ e.places, a.TrueTo source

section

variable {source : List Char} {ts : Tokens}

theorem tokens_trueTo (h : tokenize source = .ok ts) : ts.TrueTo source := by
  obtain ⟨hspread, hfinish⟩ := spread_of_tokenize h
  intro a ha
  obtain ha | ha := List.mem_append.1 ha
  · obtain ⟨t, ht, rfl⟩ := List.mem_map.1 ha
    obtain ⟨_, before, behind, rfl, hplace⟩ := hspread.place t ht
    rw [hplace]
    exact Span.trueTo_between before t.text behind
  · rw [List.mem_singleton.1 ha, Tokens.finishSpan, hfinish]
    simpa using Span.trueTo_between source [] []

theorem tokenize_answered (source : List Char) :
    Answered source (Tokens.TrueTo source) (tokenize source) := by
  cases h : tokenize source with
  | ok ts => exact tokens_trueTo h
  | error e =>
    unfold tokenize at h
    dsimp only at h
    split at h
    next what text hopen =>
      cases h
      obtain ⟨rest, hsource⟩ := scan_open hopen
      have htrue := Span.trueTo_between (joined (scan source).pieces) text rest
      rwa [← List.append_assoc, hsource, Position.after_append] at htrue
    next => cases h

theorem spanAt_trueTo (h : tokenize source = .ok ts) (n : Nat) : (ts.spanAt n).TrueTo source := by
  have htrue := tokens_trueTo h
  unfold Tokens.spanAt
  split
  next t ht =>
    have hmem := List.mem_of_getElem? ht
    exact htrue _ (List.mem_append_left _ (List.mem_map_of_mem hmem))
  next => exact htrue _ (by simp)

theorem exists_covers {a : Extent} (ha : a.Inside ts.list.length) :
    ∃ pre g post, ts.list = pre ++ (g ++ post) ∧ Covers g (ts.span a) := by
  obtain ⟨hlt, hle⟩ := ha
  have hl : ts.list = ts.list.take (ts.list.length - a.unread) ++
      ((ts.list.drop (ts.list.length - a.unread)).take (a.unread - a.left) ++
        (ts.list.drop (ts.list.length - a.unread)).drop (a.unread - a.left)) := by
    rw [List.take_append_drop, List.take_append_drop]
  have hne : (ts.list.drop (ts.list.length - a.unread)).take (a.unread - a.left) ≠ [] := by
    rw [← List.length_pos_iff, List.length_take, List.length_drop]
    omega
  have hunread : (ts.list.drop (ts.list.length - a.unread)).length = a.unread := by
    rw [List.length_drop]
    omega
  have hleft : ((ts.list.drop (ts.list.length - a.unread)).drop (a.unread - a.left)).length = a.left := by
    rw [List.length_drop, hunread]
    omega
  have hcovers := Tokens.covers_span hl hne
  rw [List.take_append_drop, hunread, hleft] at hcovers
  exact ⟨_, _, _, hl, hcovers⟩

theorem span_trueTo (h : tokenize source = .ok ts) {a : Extent} (ha : a.Inside ts.list.length) :
    (ts.span a).TrueTo source := by
  obtain ⟨pre, g, post, hl, hcovers⟩ := exists_covers ha
  have hordered := ordered_of_tokenize h
  rw [hl] at hordered
  refine hcovers.trueTo hordered.right.left fun t ht => tokens_trueTo h _ ?_
  refine List.mem_append_left _ (List.mem_map_of_mem ?_)
  rw [hl]
  exact List.mem_append_right _ (List.mem_append_left _ ht)

theorem next_answered (h : tokenize source = .ok ts) {s : List Symbol} (hs : s <:+ ts.symbols) :
    Answered source (CompilationUnit.TrueTo source) (Reading.mk source ts s).next.1 ∧
      ∃ t, t <:+ ts.symbols ∧ (Reading.mk source ts s).next.2 = ⟨source, ts, t⟩ := by
  have hdrops := Rule.Drops.file.suffix s
  unfold Reading.next
  split
  next v t hfile =>
    rw [hfile] at hdrops
    refine ⟨?_, t, hdrops.trans hs, rfl⟩
    intro d hd e he a ha
    obtain ⟨d', hd', rfl⟩ := List.mem_map.1 hd
    obtain ⟨e', he', rfl⟩ := he.of_map
    rw [TypeDecl.places_map] at ha
    obtain ⟨a', ha', rfl⟩ := List.mem_map.1 ha
    obtain ⟨head, constants, rest, behind, hplaced⟩ := (Rule.file_laid hfile).2.2 d' hd' e' he'
    obtain ⟨hne, hin⟩ := hplaced.inside a' ha'
    have hle : s.length ≤ ts.list.length := ts.length_symbols ▸ hs.length_le
    exact span_trueTo h ⟨hne, hin.trans hle⟩
  next e t hfile =>
    rw [hfile] at hdrops
    exact ⟨spanAt_trueTo h e.unread, t, hdrops.trans hs, rfl⟩

theorem steps_answered (h : tokenize source = .ok ts) (n : Nat) {s : List Symbol}
    (hs : s <:+ ts.symbols) : ∀ answer ∈ (Reading.mk source ts s).steps n,
      Answered source (CompilationUnit.TrueTo source) answer := by
  induction n generalizing s with
  | zero => simp [Reading.steps]
  | succ n ih =>
    obtain ⟨hanswer, t, ht, hnext⟩ := next_answered h hs
    rw [Reading.steps, hnext]
    exact List.forall_mem_cons.2 ⟨hanswer, ih ht⟩

end

/-- The spans of tokens, of trees and of errors are in the text, begin and end between characters, and
have the line and the column where they begin, also where reading goes on after an error. -/
theorem answers_trueTo (source : List Char) :
    Answered source (Tokens.TrueTo source) (tokenize source) ∧
    Answered source (CompilationUnit.TrueTo source) (parse source) ∧
    Answered source (fun r => ∀ n, ∀ answer ∈ r.steps n,
      Answered source (CompilationUnit.TrueTo source) answer) (Reading.start source) := by
  have htokens := tokenize_answered source
  refine ⟨htokens, ?_⟩
  unfold parse Reading.start
  cases h : tokenize source with
  | error e =>
    rw [h] at htokens
    exact ⟨htokens, htokens⟩
  | ok ts =>
    have hall := List.suffix_refl ts.symbols
    exact ⟨(next_answered h hall).1, fun n => steps_answered h n hall⟩

end MemberOrder
