import MemberOrder.Order.Traversal
import MemberOrder.Proofs.Order.Late
/-! The findings in a tree, without a stack: each body is judged by itself, a member by the kinds of
those before it. Main statement: this is what judging step by step answers
(`CompilationUnit.check_eq_findings`), where the kind, the name, the place and the message of a member are told
by its form. -/
namespace MemberOrder

variable {τ : Type}

/-- The kind of a member, by rule. Nested types, initializers and stray semicolons have none. -/
inductive Member.HasKind : Member Span τ → MemberKind → Prop
  | staticField {m type names span} (h : .reserved .static ∈ m.keywords) :
      HasKind (.field m type names span) .staticField
  | instanceField {m type names span} (h : .reserved .static ∉ m.keywords) :
      HasKind (.field m type names span) .instanceField
  | constructor {m name compact span} : HasKind (.constructor m name compact span) .constructor
  | method {m name result hasBody span} : HasKind (.method m name result hasBody span) .method

/-- The name of a member, by rule: of a field, the first of those it declares. An initializer and a stray semicolon
have none. -/
inductive Member.HasName : Member Span τ → String → Prop
  | field {m type name names span} : HasName (.field m type (name :: names) span) name
  | constructor {m name compact span} : HasName (.constructor m name compact span) name
  | method {m name result hasBody span} : HasName (.method m name result hasBody span) name
  | type {kind name m members body span} : HasName (.type (.mk kind name m members body span)) name

inductive Member.HasSpan : Member Span τ → Span → Prop
  | field {m type names span} : HasSpan (.field m type names span) span
  | constructor {m name compact span} : HasSpan (.constructor m name compact span) span
  | method {m name result hasBody span} : HasSpan (.method m name result hasBody span) span
  | type {kind name m members body span} : HasSpan (.type (.mk kind name m members body span)) span
  | initializer {isStatic span} : HasSpan (.initializer isStatic span) span
  | empty {span} : HasSpan (.empty span) span

inductive MemberKind.HasMessage : MemberKind → MessageKind → Prop
  | staticField : HasMessage .staticField .static
  | instanceField : HasMessage .instanceField .instance
  | constructor : HasMessage .constructor .constructor
  | method : HasMessage .method .method

def Member.kinds (ms : List (Member Span τ)) : List MemberKind :=
  ms.filterMap Member.kind?

/-- The finding against a member behind `earlier` ones in a body with an order. -/
def Member.finding? (earlier : List (Member Span τ)) (m : Member Span τ) : Option Violation :=
  m.kind?.bind fun kind =>
    if (kinds earlier).any (kind < ·) then
      (kinds earlier).max?.map fun latest =>
        { position := m.span, expectedNotBefore := latest, actual := kind,
          message := kind.message, name := m.name?.getD "" }
    else none

mutual

def TypeDecl.findings : TypeDecl Span τ → List Violation
  | .mk kind _ _ members _ _ =>
    Member.findingsAfter (kind ∈ [TypeKind.class, .enum, .record]) [] members

def Member.findings (ordered : Bool) (earlier : List (Member Span τ)) :
    Member Span τ → List Violation
  | .type decl => decl.findings
  | m => if ordered then (m.finding? earlier).toList else []

def Member.findingsAfter (ordered : Bool) (earlier : List (Member Span τ)) :
    List (Member Span τ) → List Violation
  | [] => []
  | m :: ms => m.findings ordered earlier ++ Member.findingsAfter ordered (earlier ++ [m]) ms

end

def CompilationUnit.findings (u : CompilationUnit Span τ) : List Violation :=
  u.types.flatMap TypeDecl.findings

theorem TypeKind.isClassLike_eq (kind : TypeKind) :
    kind.isClassLike = decide (kind ∈ [TypeKind.class, .enum, .record]) := by
  cases kind <;> rfl

theorem Member.kind?_eq_some_iff (m : Member Span τ) (k : MemberKind) :
    m.kind? = some k ↔ m.HasKind k := by
  constructor
  · intro h
    cases m with
    | field m type names span =>
      by_cases hs : .reserved .static ∈ m.keywords
      · simp [kind?, Modifiers.isStatic, hs] at h
        subst h
        exact .staticField hs
      · simp [kind?, Modifiers.isStatic, hs] at h
        subst h
        exact .instanceField hs
    | constructor m name compact span => cases h; exact .constructor
    | method m name result hasBody span => cases h; exact .method
    | type decl => cases h
    | initializer isStatic span => cases h
    | empty span => cases h
  · intro h
    cases h <;> simp_all [kind?, Modifiers.isStatic]

theorem Member.name?_eq_some_iff (m : Member Span τ) (n : String) : m.name? = some n ↔ m.HasName n := by
  constructor
  · intro h
    cases m with
    | field m type names span =>
      cases names with
      | nil => cases h
      | cons name names => cases h; exact .field
    | constructor m name compact span => cases h; exact .constructor
    | method m name result hasBody span => cases h; exact .method
    | type decl =>
      obtain ⟨kind, name, m, members, body, span⟩ := decl
      cases h
      exact .type
    | initializer isStatic span => cases h
    | empty span => cases h
  · intro h
    cases h <;> rfl

theorem Member.span_eq_iff (m : Member Span τ) (s : Span) : m.span = s ↔ m.HasSpan s := by
  constructor
  · rintro rfl
    cases m with
    | field m type names span => exact .field
    | constructor m name compact span => exact .constructor
    | method m name result hasBody span => exact .method
    | type decl =>
      obtain ⟨kind, name, m, members, body, span⟩ := decl
      exact .type
    | initializer isStatic span => exact .initializer
    | empty span => exact .empty
  · intro h
    cases h <;> rfl

theorem MemberKind.message_eq_iff (k : MemberKind) (l : MessageKind) : k.message = l ↔ k.HasMessage l := by
  constructor
  · rintro rfl
    cases k with
    | staticField => exact .staticField
    | instanceField => exact .instanceField
    | constructor => exact .constructor
    | method => exact .method
  · intro h
    cases h <;> rfl

theorem Member.finding?_eq_bind (earlier : List (Member Span τ)) (m : Member Span τ) :
    m.finding? earlier = m.event?.bind (Event.finding? (kinds earlier)) := by
  cases h : m.kind? <;> simp [finding?, event?, Event.finding?, h]

namespace Traversal

def Runs (ss : List Step) (t t' : Traversal) : Prop := ss.foldlM step t = .ok t'

theorem Runs.nil (t : Traversal) : Runs [] t t := rfl

theorem Runs.append {ss ss' : List Step} {t t' t'' : Traversal} (h : Runs ss t t')
    (h' : Runs ss' t' t'') : Runs (ss ++ ss') t t'' := by
  unfold Runs at *
  rw [List.foldlM_append, h]
  exact h'

theorem Runs.cons {s : Step} {ss : List Step} {t t' t'' : Traversal} (h : step t s = .ok t')
    (h' : Runs ss t' t'') : Runs (s :: ss) t t'' := by
  unfold Runs at *
  rw [List.foldlM_cons, h]
  exact h'

/-- The open bodies, the innermost of which has an order and members with these kinds so far; one
without an order is not among them. -/
def inBody (ordered : Bool) (ks : List MemberKind) (fs : List Scope) : ScopeStack :=
  if ordered then ⟨⟨ks.max?⟩ :: fs⟩ else ⟨fs⟩

end Traversal

open Traversal

/-- A member that declares no type costs at most one step. -/
theorem Member.runs_event (ordered : Bool) (earlier : List (Member Span τ)) (m : Member Span τ)
    (fs : List Scope) (vs : List Violation) :
    Runs (if ordered then m.event?.toList.map Step.member else [])
      ⟨inBody ordered (kinds earlier) fs, vs⟩
      ⟨inBody ordered (kinds (earlier ++ [m])) fs,
        vs ++ if ordered then (m.finding? earlier).toList else []⟩ := by
  cases ordered with
  | false => simpa [inBody] using Runs.nil _
  | true =>
    rw [finding?_eq_bind]
    cases hk : m.kind? with
    | none => simpa [inBody, event?, kinds, hk] using Runs.nil _
    | some k =>
      simp only [inBody, event?, hk, kinds, if_true, Option.map_some, Option.toList_some,
        List.map_cons, List.map_nil, Option.bind_some, List.filterMap_append,
        List.filterMap_cons, List.filterMap_nil]
      exact Runs.cons (step_member _ _ _ _) (Runs.nil _)

mutual

theorem TypeDecl.runs_steps (d : TypeDecl Span τ) (fs : List Scope) (vs : List Violation) :
    Runs d.steps ⟨⟨fs⟩, vs⟩ ⟨⟨fs⟩, vs ++ d.findings⟩ := by
  obtain ⟨kind, name, modifiers, members, body, span⟩ := d
  rw [TypeDecl.steps, TypeDecl.findings, ← TypeKind.isClassLike_eq]
  cases kind.isClassLike with
  | false => exact Member.runs_stepsOf false [] members fs vs
  | true =>
    have hmembers := Member.runs_stepsOf true [] members fs vs
    -- Entering puts the first frame of this body on the stack; leaving takes the last one off.
    exact Runs.cons rfl (hmembers.append (Runs.cons rfl (Runs.nil _)))

theorem Member.runs_steps (ordered : Bool) (earlier : List (Member Span τ)) (m : Member Span τ)
    (fs : List Scope) (vs : List Violation) :
    Runs (m.steps ordered) ⟨inBody ordered (Member.kinds earlier) fs, vs⟩
      ⟨inBody ordered (Member.kinds (earlier ++ [m])) fs, vs ++ m.findings ordered earlier⟩ := by
  cases m with
  | type d =>
    have hk : Member.kinds (earlier ++ [.type d]) = Member.kinds earlier := by
      simp [Member.kinds, Member.kind?]
    rw [hk]
    exact d.runs_steps _ vs
  | field m type names span => exact Member.runs_event ordered earlier _ fs vs
  | constructor m name compact span => exact Member.runs_event ordered earlier _ fs vs
  | method m name result hasBody span => exact Member.runs_event ordered earlier _ fs vs
  | initializer isStatic span => exact Member.runs_event ordered earlier _ fs vs
  | empty span => exact Member.runs_event ordered earlier _ fs vs

theorem Member.runs_stepsOf (ordered : Bool) (earlier ms : List (Member Span τ))
    (fs : List Scope) (vs : List Violation) :
    Runs (Member.stepsOf ordered ms) ⟨inBody ordered (Member.kinds earlier) fs, vs⟩
      ⟨inBody ordered (Member.kinds (earlier ++ ms)) fs,
        vs ++ Member.findingsAfter ordered earlier ms⟩ := by
  match ms with
  | [] => simpa [Member.stepsOf, Member.findingsAfter] using Runs.nil _
  | m :: ms =>
    have hm := Member.runs_steps ordered earlier m fs vs
    have hms := Member.runs_stepsOf ordered (earlier ++ [m]) ms fs (vs ++ m.findings ordered earlier)
    simpa [Member.stepsOf, Member.findingsAfter] using hm.append hms

end

theorem TypeDecl.runs_flatMap (ds : List (TypeDecl Span τ)) (vs : List Violation) :
    Runs (ds.flatMap TypeDecl.steps) ⟨.empty, vs⟩ ⟨.empty, vs ++ ds.flatMap TypeDecl.findings⟩ := by
  induction ds generalizing vs with
  | nil => simpa using Runs.nil _
  | cons d ds ih =>
    simpa [ScopeStack.empty] using (d.runs_steps [] vs).append (ih (vs ++ d.findings))

/-- Judging a whole tree step by step never fails, and finds what judging each body by itself finds:
in the order of the text, the members of class-like bodies with some later kind before them. What a finding
says of its member is what the form of the member says. -/
theorem CompilationUnit.check_eq_findings :
    [MemberKind.staticField, .instanceField, .constructor, .method].Pairwise (· < ·) ∧
    (∀ (m : Member Span τ) (k : MemberKind), m.kind? = some k ↔ m.HasKind k) ∧
    (∀ (m : Member Span τ) (n : String), m.name? = some n ↔ m.HasName n) ∧
    (∀ (m : Member Span τ) (s : Span), m.span = s ↔ m.HasSpan s) ∧
    (∀ (k : MemberKind) (l : MessageKind), k.message = l ↔ k.HasMessage l) ∧
    ∀ u : CompilationUnit Span τ, u.check = .ok u.findings := by
  refine ⟨by decide, Member.kind?_eq_some_iff, Member.name?_eq_some_iff, Member.span_eq_iff,
    MemberKind.message_eq_iff, fun u => ?_⟩
  have h : u.steps.foldlM step .start = .ok ⟨.empty, u.findings⟩ := TypeDecl.runs_flatMap u.types []
  rw [check, h]
  rfl

end MemberOrder
