import MemberOrder.Proofs.Order.Findings
import MemberOrder.Proofs.Declaration.Layout
/-! What is told of the members of a tree, body by body, and trees without some of their members. The
findings are an instance (`TypeDecl.findings_eq_gather`), so places mean nothing to them but to be
handed on (`CompilationUnit.findings_map`, `CompilationUnit.told_congr`). -/
namespace MemberOrder

variable {σ σ' τ τ' ε ε' : Type}

/-- Something about a member that declares no type, given whether its body has an order and the
members in front of it there. -/
abbrev About (σ τ α : Type) := Bool → List (Member σ τ) → Member σ τ → α

mutual

/-- What is told of the members of a type, and of those of nested types, in the order of the text. -/
def TypeDecl.gather (tell : About σ τ (List ε)) : TypeDecl σ τ → List ε
  | .mk kind _ _ members _ _ => Member.gatherAfter tell kind.isClassLike [] members

def Member.gather (tell : About σ τ (List ε)) (ordered : Bool) (earlier : List (Member σ τ)) :
    Member σ τ → List ε
  | .type decl => decl.gather tell
  | m => tell ordered earlier m

def Member.gatherAfter (tell : About σ τ (List ε)) (ordered : Bool)
    (earlier : List (Member σ τ)) : List (Member σ τ) → List ε
  | [] => []
  | m :: ms =>
    m.gather tell ordered earlier ++ Member.gatherAfter tell ordered (earlier ++ [m]) ms

end

mutual

/-- The tree without the members that are to go. Types stay. -/
def TypeDecl.without (gone : About σ τ Bool) : TypeDecl σ τ → TypeDecl σ τ
  | .mk kind name modifiers members body span =>
    .mk kind name modifiers (Member.withoutAfter gone kind.isClassLike [] members) body span

def Member.without (gone : About σ τ Bool) (ordered : Bool) (earlier : List (Member σ τ)) :
    Member σ τ → List (Member σ τ)
  | .type decl => [.type (decl.without gone)]
  | m => if gone ordered earlier m then [] else [m]

def Member.withoutAfter (gone : About σ τ Bool) (ordered : Bool) (earlier : List (Member σ τ)) :
    List (Member σ τ) → List (Member σ τ)
  | [] => []
  | m :: ms =>
    m.without gone ordered earlier ++ Member.withoutAfter gone ordered (earlier ++ [m]) ms

end

theorem TypeDecl.nested_induction {motive : TypeDecl σ τ → Prop}
    (h : ∀ kind name m members body span, (∀ e, .type e ∈ members → motive e) →
      motive (.mk kind name m members body span)) (d : TypeDecl σ τ) : motive d := by
  induction hn : sizeOf d using Nat.strongRecOn generalizing d with
  | ind n ih =>
    subst hn
    obtain ⟨kind, name, m, members, body, span⟩ := d
    refine h kind name m members body span fun e he => ih (sizeOf e) ?_ e rfl
    have hlt := List.sizeOf_lt_of_mem he
    simp only [Member.type.sizeOf_spec, mk.sizeOf_spec] at hlt ⊢
    omega

def Member.IsLeaf (m : Member σ τ) : Prop :=
  ∀ d, m ≠ .type d

theorem Member.isLeaf_or (m : Member σ τ) : m.IsLeaf ∨ ∃ d, m = .type d := by
  cases m with
  | type d => exact .inr ⟨d, rfl⟩
  | field | constructor | method | initializer | empty => exact .inl fun _ h => by cases h

theorem TypeDecl.body_induction {motive : TypeDecl σ τ → Prop}
    {r : Bool → List (Member σ τ) → List (Member σ τ) → Prop}
    (mk : ∀ kind name m members body span, r kind.isClassLike [] members →
      motive (.mk kind name m members body span))
    (nil : ∀ ordered earlier, r ordered earlier [])
    (leaf : ∀ ordered earlier x xs, x.IsLeaf → r ordered (earlier ++ [x]) xs →
      r ordered earlier (x :: xs))
    (type : ∀ ordered earlier d xs, motive d → r ordered (earlier ++ [.type d]) xs →
      r ordered earlier (.type d :: xs)) (d : TypeDecl σ τ) : motive d := by
  induction d using nested_induction with
  | h kind name m members body span ih =>
    have hbody (ordered : Bool) (earlier : List (Member σ τ)) : r ordered earlier members := by
      induction members generalizing earlier with
      | nil => exact nil ordered earlier
      | cons x xs ihx =>
        have hxs := ihx (fun e he => ih e (List.mem_cons_of_mem _ he)) (earlier ++ [x])
        obtain hleaf | ⟨e, rfl⟩ := x.isLeaf_or
        · exact leaf ordered earlier x xs hleaf hxs
        · exact type ordered earlier e xs (ih e List.mem_cons_self) hxs
    exact mk kind name m members body span (hbody kind.isClassLike [])

section Leaf

variable {m : Member σ τ} (h : m.IsLeaf) (ordered : Bool) (earlier : List (Member σ τ))

include h

theorem Member.IsLeaf.gather (tell : About σ τ (List ε)) :
    m.gather tell ordered earlier = tell ordered earlier m := by
  cases m with
  | type d => exact absurd rfl (h d)
  | field | constructor | method | initializer | empty => rfl

theorem Member.IsLeaf.without (gone : About σ τ Bool) :
    m.without gone ordered earlier = if gone ordered earlier m then [] else [m] := by
  cases m with
  | type d => exact absurd rfl (h d)
  | field | constructor | method | initializer | empty => rfl

end Leaf

theorem Member.exists_gather_of_mem {xs : List (Member σ τ)} {x : Member σ τ} (hx : x ∈ xs)
    (tell : About σ τ (List ε)) (ordered : Bool) (earlier : List (Member σ τ)) :
    ∃ earlier', ∀ a ∈ x.gather tell ordered earlier',
      a ∈ Member.gatherAfter tell ordered earlier xs := by
  induction xs generalizing earlier with
  | nil => cases hx
  | cons y xs ih =>
    simp only [Member.gatherAfter, List.mem_append]
    obtain rfl | hx := List.mem_cons.1 hx
    · exact ⟨earlier, fun a ha => .inl ha⟩
    · obtain ⟨earlier', hmem⟩ := ih hx (earlier ++ [y])
      exact ⟨earlier', fun a ha => .inr (hmem a ha)⟩

theorem TypeDecl.Holds.exists_gather {d e : TypeDecl σ τ} (he : d.Holds e) {x : Member σ τ}
    (hx : x ∈ e.members) (tell : About σ τ (List ε)) :
    ∃ ordered earlier, ∀ a ∈ x.gather tell ordered earlier, a ∈ d.gather tell := by
  induction he with
  | @self d =>
    obtain ⟨kind, name, m, members, body, span⟩ := d
    exact ⟨_, Member.exists_gather_of_mem hx tell kind.isClassLike []⟩
  | @inner d e' e hmem _ ih =>
    obtain ⟨ordered, earlier, hinner⟩ := ih hx
    obtain ⟨kind, name, m, members, body, span⟩ := d
    obtain ⟨_, houter⟩ := Member.exists_gather_of_mem hmem tell kind.isClassLike []
    exact ⟨ordered, earlier, fun a ha => houter a (hinner a ha)⟩

section Map

variable {f : σ → σ'} {g : τ → τ'}

@[simp] theorem Member.kind?_map (m : Member σ τ) : (m.map f g).kind? = m.kind? := by
  cases m <;> rfl

@[simp] theorem Member.name?_map (m : Member σ τ) : (m.map f g).name? = m.name? := by
  cases m with
  | type d =>
    cases d
    rfl
  | field | constructor | method | initializer | empty => rfl

theorem Member.IsLeaf.map {m : Member σ τ} (h : m.IsLeaf) : (m.map f g).IsLeaf := by
  cases m with
  | type d => exact absurd rfl (h d)
  | field | constructor | method | initializer | empty => exact fun _ h => by cases h

theorem TypeDecl.gather_map (f : σ → σ') (g : τ → τ') (tell : About σ' τ' (List ε))
    (d : TypeDecl σ τ) : (d.map f g).gather tell = d.gather fun ordered earlier m =>
      tell ordered (earlier.map (Member.map f g)) (m.map f g) := by
  induction d using TypeDecl.body_induction (r := fun ordered earlier xs =>
    Member.gatherAfter tell ordered (earlier.map (Member.map f g)) (xs.map (Member.map f g)) =
      Member.gatherAfter (fun ordered earlier m =>
        tell ordered (earlier.map (Member.map f g)) (m.map f g)) ordered earlier xs) with
  | mk kind name m members body span ih => rwa [TypeDecl.map, Member.mapAll_eq_map]
  | nil => rfl
  | leaf ordered earlier x xs hleaf ih =>
    rw [List.map_append, List.map_cons, List.map_nil] at ih
    rw [List.map_cons, Member.gatherAfter, Member.gatherAfter, hleaf.map.gather, hleaf.gather, ih]
  | type ordered earlier d xs hd ih =>
    rw [List.map_append, List.map_cons, List.map_nil] at ih
    rw [List.map_cons, Member.gatherAfter, Member.gatherAfter, ih, Member.map, Member.gather, hd,
      Member.gather]

theorem TypeDecl.flatMap_gather (φ : ε → List ε') (tell : About σ τ (List ε)) (d : TypeDecl σ τ) :
    (d.gather tell).flatMap φ =
      d.gather fun ordered earlier m => (tell ordered earlier m).flatMap φ := by
  induction d using TypeDecl.body_induction (r := fun ordered earlier xs =>
    (Member.gatherAfter tell ordered earlier xs).flatMap φ =
      Member.gatherAfter (fun ordered earlier m => (tell ordered earlier m).flatMap φ)
        ordered earlier xs) with
  | mk kind name m members body span ih => exact ih
  | nil => rfl
  | leaf ordered earlier x xs hleaf ih =>
    rw [Member.gatherAfter, Member.gatherAfter, List.flatMap_append, hleaf.gather, hleaf.gather, ih]
  | type ordered earlier d xs hd ih =>
    rw [Member.gatherAfter, Member.gatherAfter, List.flatMap_append, Member.gather, hd, ih,
      Member.gather]

theorem TypeDecl.map_gather (φ : ε → ε') (tell : About σ τ (List ε)) (d : TypeDecl σ τ) :
    (d.gather tell).map φ = d.gather fun ordered earlier m => (tell ordered earlier m).map φ := by
  simp only [List.map_eq_flatMap, flatMap_gather]

theorem TypeDecl.without_map {gone : About σ τ Bool} {gone' : About σ' τ' Bool}
    (h : ∀ ordered earlier m, gone' ordered (earlier.map (Member.map f g)) (m.map f g) =
      gone ordered earlier m) (d : TypeDecl σ τ) :
    (d.map f g).without gone' = (d.without gone).map f g := by
  induction d using TypeDecl.body_induction (r := fun ordered earlier xs =>
    Member.withoutAfter gone' ordered (earlier.map (Member.map f g)) (xs.map (Member.map f g)) =
      (Member.withoutAfter gone ordered earlier xs).map (Member.map f g)) with
  | mk kind name m members body span ih =>
    rw [TypeDecl.map, TypeDecl.without, TypeDecl.without, TypeDecl.map, Member.mapAll_eq_map,
      Member.mapAll_eq_map]
    exact congrArg (TypeDecl.mk kind name (m.map f) · (f body) (f span)) ih
  | nil => rfl
  | leaf ordered earlier x xs hleaf ih =>
    rw [List.map_append, List.map_cons, List.map_nil] at ih
    rw [List.map_cons, Member.withoutAfter, Member.withoutAfter, ih, List.map_append, hleaf.without,
      hleaf.map.without, h]
    split <;> rfl
  | type ordered earlier d xs hd ih =>
    rw [List.map_append, List.map_cons, List.map_nil] at ih
    rw [List.map_cons, Member.withoutAfter, Member.withoutAfter, ih, List.map_append, Member.map,
      Member.without, hd, Member.without]
    rfl

end Map

theorem TypeDecl.without_congr {gone gone' : About σ τ Bool} (d : TypeDecl σ τ)
    (h : ∀ p ∈ d.gather fun ordered earlier m => [(gone ordered earlier m, gone' ordered earlier m)],
      p.1 = p.2) : d.without gone = d.without gone' := by
  induction d using TypeDecl.body_induction (r := fun ordered earlier xs =>
    (∀ p ∈ Member.gatherAfter (fun ordered earlier m =>
      [(gone ordered earlier m, gone' ordered earlier m)]) ordered earlier xs, p.1 = p.2) →
    Member.withoutAfter gone ordered earlier xs = Member.withoutAfter gone' ordered earlier xs) with
  | mk kind name m members body span ih => rw [TypeDecl.without, TypeDecl.without, ih h]
  | nil => rfl
  | leaf ordered earlier x xs hleaf ih h =>
    rw [Member.gatherAfter, hleaf.gather, List.singleton_append, List.forall_mem_cons] at h
    have hx : gone ordered earlier x = gone' ordered earlier x := h.1
    rw [Member.withoutAfter, Member.withoutAfter, hleaf.without, hleaf.without, hx, ih h.2]
  | type ordered earlier d xs hd ih h =>
    rw [Member.gatherAfter, Member.gather, List.forall_mem_append] at h
    rw [Member.withoutAfter, Member.withoutAfter, Member.without, Member.without, hd h.1, ih h.2]

theorem TypeDecl.without_eq_self {gone : About σ τ Bool}
    (h : ∀ ordered earlier m, gone ordered earlier m = false) (d : TypeDecl σ τ) :
    d.without gone = d := by
  induction d using TypeDecl.body_induction (r := fun ordered earlier xs =>
    Member.withoutAfter gone ordered earlier xs = xs) with
  | mk kind name m members body span ih => rw [TypeDecl.without, ih]
  | nil => rfl
  | leaf ordered earlier x xs hleaf ih =>
    rw [Member.withoutAfter, hleaf.without, h, ih]
    rfl
  | type ordered earlier d xs hd ih =>
    rw [Member.withoutAfter, Member.without, hd, ih]
    rfl

def CompilationUnit.without (gone : About σ τ Bool) (u : CompilationUnit σ τ) :
    CompilationUnit σ τ :=
  ⟨u.package?, u.types.map (TypeDecl.without gone)⟩

theorem CompilationUnit.without_eq_self {gone : About σ τ Bool}
    (h : ∀ ordered earlier m, gone ordered earlier m = false) (u : CompilationUnit σ τ) :
    u.without gone = u := by
  have htypes : u.types.map (TypeDecl.without gone) = u.types.map id :=
    List.map_congr_left fun d _ => TypeDecl.without_eq_self h d
  rw [without, htypes, List.map_id]

theorem CompilationUnit.without_map (f : σ → σ') (g : τ → τ') {gone : About σ τ Bool}
    {gone' : About σ' τ' Bool} (h : ∀ ordered earlier m,
      gone' ordered (earlier.map (Member.map f g)) (m.map f g) = gone ordered earlier m)
    (u : CompilationUnit σ τ) : (u.map f g).without gone' = (u.without gone).map f g := by
  simp only [without, map, List.map_map, Function.comp_def, TypeDecl.without_map h]

def Member.findingIn : About Span τ (List Violation) := fun ordered earlier m =>
  if ordered then (m.finding? earlier).toList else []

theorem TypeDecl.findings_eq_gather (d : TypeDecl Span τ) :
    d.findings = d.gather Member.findingIn := by
  induction d using TypeDecl.body_induction (r := fun ordered earlier xs =>
    Member.findingsAfter ordered earlier xs =
      Member.gatherAfter Member.findingIn ordered earlier xs) with
  | mk kind name m members body span ih =>
    rw [TypeDecl.findings, TypeDecl.gather, ← ih, TypeKind.isClassLike_eq]
  | nil => rfl
  | leaf ordered earlier x xs hleaf ih =>
    have hx : x.findings ordered earlier = Member.findingIn ordered earlier x := by
      cases x with
      | type e => exact absurd rfl (hleaf e)
      | field | constructor | method | initializer | empty => rfl
    rw [Member.findingsAfter, Member.gatherAfter, hleaf.gather, hx, ih]
  | type ordered earlier d xs hd ih =>
    rw [Member.findingsAfter, Member.gatherAfter, Member.findings, hd, Member.gather, ih]

namespace Violation

/-- The finding, made at another place. -/
def moved (f : Span → Span) (v : Violation) : Violation :=
  { v with position := f v.position }

def told (v : Violation) : String × MemberKind × MemberKind × MessageKind :=
  (v.name, v.actual, v.expectedNotBefore, v.message)

theorem told_moved (f : Span → Span) (v : Violation) : (v.moved f).told = v.told := rfl

end Violation

theorem Member.findingIn_map (f : Span → Span) (g : τ → τ') (ordered : Bool)
    (earlier : List (Member Span τ)) (m : Member Span τ) :
    findingIn ordered (earlier.map (Member.map f g)) (m.map f g) =
      (findingIn ordered earlier m).map (Violation.moved f) := by
  have hkinds : kinds (earlier.map (Member.map f g)) = kinds earlier := by
    simp [kinds, List.filterMap_map]
  cases ordered with
  | false => rfl
  | true =>
    cases hk : m.kind? with
    | none => simp [findingIn, finding?, hk]
    | some k =>
      simp only [findingIn, finding?, kind?_map, name?_map, span_map, hkinds, hk, if_true,
        Option.bind_some]
      split
      · cases (kinds earlier).max? <;> rfl
      · rfl

theorem CompilationUnit.findings_map (f : Span → Span) (g : τ → τ') (u : CompilationUnit Span τ) :
    (u.map f g).findings = u.findings.map (Violation.moved f) := by
  simp only [findings, map, List.flatMap_map, List.map_flatMap, TypeDecl.findings_eq_gather,
    TypeDecl.gather_map, TypeDecl.map_gather, Member.findingIn_map]

theorem CompilationUnit.told_congr {u : CompilationUnit Span τ} {u' : CompilationUnit Span τ'}
    (h : u.map (fun _ => ()) (fun _ => ()) = u'.map (fun _ => ()) (fun _ => ())) :
    u.findings.map Violation.told = u'.findings.map Violation.told := by
  have hplaced := congrArg (CompilationUnit.map (fun _ => (default : Span)) (fun _ => ())) h
  rw [map_map, map_map] at hplaced
  have hfindings := congrArg (fun v => v.findings.map Violation.told) hplaced
  simpa only [findings_map, List.map_map, Function.comp_def, Violation.told_moved] using hfindings

theorem CompilationUnit.told_congr_of_places {u u' : CompilationUnit Span τ}
    (h : u.map (fun _ => ()) id = u'.map (fun _ => ()) id) :
    u.findings.map Violation.told = u'.findings.map Violation.told := by
  have hplain := congrArg (CompilationUnit.map id fun _ => ()) h
  rw [map_map, map_map] at hplain
  exact told_congr hplain

end MemberOrder
