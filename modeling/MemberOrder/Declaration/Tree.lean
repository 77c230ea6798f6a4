import MemberOrder.Token.Symbol
/-! The tree of declarations. What marks a place (`σ`) and what tells a type (`τ`) are
parameters: the grammar counts tokens, a finished tree has spans and the text of its types, and a
tree over `Unit` is a tree without places. -/
namespace MemberOrder

/-- A modifier. The word `sealed` is not reserved; it is one where the grammar takes it for one. -/
inductive Modifier
  | reserved (word : ModifierWord)
  | «sealed»
  deriving DecidableEq, Repr

inductive TypeKind
  | «class» | interface | enum | record | annotationType
  deriving DecidableEq, Repr

namespace TypeKind

def name : TypeKind → String
  | .class => "class"
  | .interface => "interface"
  | .enum => "enum"
  | .record => "record"
  | .annotationType => "@interface"

/-- Only in these bodies does the order of the members mean anything. -/
def isClassLike : TypeKind → Bool
  | .class | .enum | .record => true
  | .interface | .annotationType => false

end TypeKind

structure Modifiers (σ : Type) where
  keywords : List Modifier
  annotations : List String
  first? : Option σ
  deriving DecidableEq, Repr

namespace Modifiers

variable {σ σ' : Type}

def isStatic (m : Modifiers σ) : Bool :=
  m.keywords.contains (.reserved .static)

def map (f : σ → σ') (m : Modifiers σ) : Modifiers σ' :=
  ⟨m.keywords, m.annotations, m.first?.map f⟩

end Modifiers

mutual

/-- A type declaration. `body` is the place of its braces and what is between them. -/
inductive TypeDecl (σ τ : Type)
  | mk (kind : TypeKind) (name : String) (modifiers : Modifiers σ) (members : List (Member σ τ))
      (body span : σ)

inductive Member (σ τ : Type)
  | field (modifiers : Modifiers σ) (type : τ) (names : List String) (span : σ)
  | constructor (modifiers : Modifiers σ) (name : String) (compact : Bool) (span : σ)
  | method (modifiers : Modifiers σ) (name : String) (result : τ) (hasBody : Bool) (span : σ)
  | type (decl : TypeDecl σ τ)
  | initializer (isStatic : Bool) (span : σ)
  | empty (span : σ)

end

variable {σ σ' τ τ' : Type}

namespace TypeDecl

def kind : TypeDecl σ τ → TypeKind
  | mk kind .. => kind

def name : TypeDecl σ τ → String
  | mk _ name .. => name

def modifiers : TypeDecl σ τ → Modifiers σ
  | mk _ _ modifiers .. => modifiers

def members : TypeDecl σ τ → List (Member σ τ)
  | mk _ _ _ members .. => members

def body : TypeDecl σ τ → σ
  | mk _ _ _ _ body _ => body

def span : TypeDecl σ τ → σ
  | mk _ _ _ _ _ span => span

end TypeDecl

namespace Member

def span : Member σ τ → σ
  | field _ _ _ span => span
  | constructor _ _ _ span => span
  | method _ _ _ _ span => span
  | type decl => decl.span
  | initializer _ span => span
  | empty span => span

def name? : Member σ τ → Option String
  | field _ _ names _ => names.head?
  | constructor _ name _ _ => some name
  | method _ name _ _ _ => some name
  | type decl => some decl.name
  | initializer _ _ => none
  | empty _ => none

end Member

mutual

def TypeDecl.map (f : σ → σ') (g : τ → τ') : TypeDecl σ τ → TypeDecl σ' τ'
  | .mk kind name modifiers members body span =>
    .mk kind name (modifiers.map f) (Member.mapAll f g members) (f body) (f span)

def Member.map (f : σ → σ') (g : τ → τ') : Member σ τ → Member σ' τ'
  | .field m type names span => .field (m.map f) (g type) names (f span)
  | .constructor m name compact span => .constructor (m.map f) name compact (f span)
  | .method m name result hasBody span => .method (m.map f) name (g result) hasBody (f span)
  | .type decl => .type (decl.map f g)
  | .initializer isStatic span => .initializer isStatic (f span)
  | .empty span => .empty (f span)

def Member.mapAll (f : σ → σ') (g : τ → τ') : List (Member σ τ) → List (Member σ' τ')
  | [] => []
  | m :: ms => m.map f g :: Member.mapAll f g ms

end

theorem Member.mapAll_eq_map (f : σ → σ') (g : τ → τ') (ms : List (Member σ τ)) :
    Member.mapAll f g ms = ms.map (Member.map f g) := by
  induction ms with
  | nil => rfl
  | cons m ms ih => simp [Member.mapAll, ih]

structure CompilationUnit (σ τ : Type) where
  package? : Option String
  types : List (TypeDecl σ τ)

def CompilationUnit.map (f : σ → σ') (g : τ → τ') (u : CompilationUnit σ τ) :
    CompilationUnit σ' τ' :=
  ⟨u.package?, u.types.map (TypeDecl.map f g)⟩

section MapMap

variable {σ'' τ'' : Type} (f : σ → σ') (f' : σ' → σ'') (g : τ → τ') (g' : τ' → τ'')

theorem Modifiers.map_map (m : Modifiers σ) : (m.map f).map f' = m.map (f' ∘ f) := by
  simp [Modifiers.map]

mutual

theorem TypeDecl.map_map : ∀ d : TypeDecl σ τ, (d.map f g).map f' g' = d.map (f' ∘ f) (g' ∘ g)
  | .mk kind name m members body span => by
    simp only [TypeDecl.map, Modifiers.map_map, Member.mapAll_mapAll members, Function.comp_apply]

theorem Member.map_map : ∀ m : Member σ τ, (m.map f g).map f' g' = m.map (f' ∘ f) (g' ∘ g)
  | .field .. | .constructor .. | .method .. | .initializer .. | .empty .. => by
    simp only [Member.map, Modifiers.map_map, Function.comp_apply]
  | .type d => by simp only [Member.map, TypeDecl.map_map d]

theorem Member.mapAll_mapAll : ∀ ms : List (Member σ τ),
    Member.mapAll f' g' (Member.mapAll f g ms) = Member.mapAll (f' ∘ f) (g' ∘ g) ms
  | [] => rfl
  | m :: ms => by simp only [Member.mapAll, Member.map_map m, Member.mapAll_mapAll ms]

end

theorem CompilationUnit.map_map (u : CompilationUnit σ τ) :
    (u.map f g).map f' g' = u.map (f' ∘ f) (g' ∘ g) := by
  simp [CompilationUnit.map, TypeDecl.map_map]

end MapMap

end MemberOrder
