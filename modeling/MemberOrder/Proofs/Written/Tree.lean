import MemberOrder.Proofs.Declaration.Balanced
import MemberOrder.Proofs.Written.Lexeme
/-! Declarations to be written down: trees that also hold what is only read over, their tokens, and
the tree without places that is to be read from them. -/
namespace MemberOrder.Written

/-- Tokens in balance. None of `stops` is outside brackets. -/
structure Stretch (stops : List Symbol) where
  lexemes : List Lexeme
  balanced : BalancedOver (fun x => !stops.contains x) (symbols lexemes)

/-- What stands behind a `<`, up to and with the `>` that closes it. -/
structure Angles where
  inside : List Lexeme
  closed : InAngles 1 (symbols inside) []

structure DottedName where
  first : Name
  more : List Name

structure AnnotationUse where
  name : DottedName
  arguments? : Option (Stretch [])

inductive Modifier
  | reserved (word : ModifierWord)
  | «sealed»
  | annotated (a : AnnotationUse)

inductive TypePart
  | arguments (a : Angles)
  | inner (annotations : List AnnotationUse) (name : Name)
  | dimension

structure TypeUse where
  name : Name
  parts : List TypePart

/-- Type parameters of a member, and annotations between them and its type. -/
structure Generics where
  parameters : Angles
  annotations : List AnnotationUse

structure Declarator where
  dimensions : List (Stretch [])
  initializer? : Option (Stretch [.mark .semicolon, .mark .comma])

inductive Ending
  | body (inside : Stretch [])
  | semicolon
  | default (value : Stretch [.mark .semicolon])

inductive Kind
  | «class» | interface | record | annotationType
  | enum (constants : Stretch [.mark .semicolon, .closing .curly]) (semicolon : Bool)

mutual

inductive TypeDecl
  | mk (kind : Kind) (name : Name) (modifiers : List Modifier) (header : Stretch [.opening .curly])
      (members : List Member)

inductive Member
  | field (modifiers : List Modifier) (generics? : Option Generics) (type : TypeUse) (name : Name)
      (first : Declarator) (more : List (Name × Declarator))
  | constructor (modifiers : List Modifier) (generics? : Option Angles) (parameters : Stretch [])
      (throws : Stretch [.opening .curly]) (body : Stretch [])
  | compact (modifiers : List Modifier) (generics? : Option Angles) (body : Stretch [])
  | method (modifiers : List Modifier) (generics? : Option Generics) (type : TypeUse) (name : Name)
      (parameters : Stretch [])
      (throws : Stretch [.opening .curly, .mark .semicolon, .keyword (.modifier .default)])
      (ending : Ending)
  | type (decl : TypeDecl)
  | initializer (isStatic : Bool) (body : Stretch [])
  | empty

end

structure File where
  package? : Option DottedName
  imports : List (Stretch [.mark .semicolon])
  types : List TypeDecl

/-! The tokens. -/

def grouped (b : Bracket) (s : Stretch []) : List Lexeme :=
  .opening b :: (s.lexemes ++ [.closing b])

def Angles.lexemes (a : Angles) : List Lexeme :=
  .mark .less :: a.inside

namespace DottedName

def lexemes (d : DottedName) : List Lexeme :=
  d.first.lexeme :: d.more.flatMap fun n => [.mark .dot, n.lexeme]

def text (d : DottedName) : String :=
  ".".intercalate (d.first.text :: d.more.map (·.text))

end DottedName

namespace AnnotationUse

def arguments (a : AnnotationUse) : List Lexeme :=
  a.arguments?.elim [] (grouped .round)

def lexemes (a : AnnotationUse) : List Lexeme :=
  .mark .atSign :: (a.name.lexemes ++ a.arguments)

end AnnotationUse

namespace Modifier

def lexemes : Modifier → List Lexeme
  | reserved w => [.keyword (.modifier w)]
  | «sealed» => [Name.sealed.lexeme]
  | annotated a => a.lexemes

def keyword? : Modifier → Option MemberOrder.Modifier
  | reserved w => some (.reserved w)
  | «sealed» => some .sealed
  | annotated _ => none

def annotationName? : Modifier → Option String
  | annotated a => some a.name.text
  | _ => none

def tree (ms : List Modifier) : Modifiers Unit :=
  ⟨ms.filterMap keyword?, ms.filterMap annotationName?, if ms.isEmpty then none else some ()⟩

end Modifier

def TypePart.lexemes : TypePart → List Lexeme
  | arguments a => a.lexemes
  | inner as n => .mark .dot :: (as.flatMap AnnotationUse.lexemes ++ [n.lexeme])
  | dimension => [.opening .square, .closing .square]

def TypeUse.lexemes (t : TypeUse) : List Lexeme :=
  t.name.lexeme :: t.parts.flatMap TypePart.lexemes

def Generics.lexemes (g : Generics) : List Lexeme :=
  g.parameters.lexemes ++ g.annotations.flatMap AnnotationUse.lexemes

namespace Declarator

def initializer (d : Declarator) : List Lexeme :=
  d.initializer?.elim [] fun s => .mark .equals :: s.lexemes

def lexemes (d : Declarator) : List Lexeme :=
  d.dimensions.flatMap (grouped .square) ++ d.initializer

end Declarator

def declarators (d : Declarator) (more : List (Name × Declarator)) : List Lexeme :=
  d.lexemes ++ (more.flatMap (fun (n, d) => .mark .comma :: n.lexeme :: d.lexemes) ++
    [.mark .semicolon])

namespace Ending

def lexemes : Ending → List Lexeme
  | body s => grouped .curly s
  | semicolon => [.mark .semicolon]
  | default s => .keyword (.modifier .default) :: (s.lexemes ++ [.mark .semicolon])

def hasBody : Ending → Bool
  | body _ => true
  | _ => false

end Ending

namespace Kind

def kind : Kind → TypeKind
  | «class» => .class
  | interface => .interface
  | record => .record
  | annotationType => .annotationType
  | enum _ _ => .enum

def lexemes : Kind → List Lexeme
  | «class» => [.keyword .class]
  | interface => [.keyword .interface]
  | record => [Name.record.lexeme]
  | annotationType => [.mark .atSign, .keyword .interface]
  | enum _ _ => [.keyword .enum]

def constants (isLast : Bool) : Kind → List Lexeme
  | enum cs semicolon => cs.lexemes ++ if semicolon || !isLast then [.mark .semicolon] else []
  | _ => []

end Kind

def TypeDecl.modifiers : TypeDecl → List Modifier
  | mk _ _ ms _ _ => ms

def Member.modifiers : Member → List Modifier
  | field ms .. | constructor ms .. | compact ms .. | method ms .. => ms
  | type d => d.modifiers
  | initializer _ _ | empty => []

mutual

def TypeDecl.tail : TypeDecl → List Lexeme
  | .mk kind name _ header members =>
    kind.lexemes ++ name.lexeme :: (header.lexemes ++ .opening .curly ::
      (kind.constants members.isEmpty ++ (Member.allLexemes name members ++ [.closing .curly])))

def Member.tail (owner : Name) : Member → List Lexeme
  | .field _ g? t n d more => g?.elim [] Generics.lexemes ++ (t.lexemes ++ n.lexeme ::
      declarators d more)
  | .constructor _ g? ps ts body => g?.elim [] Angles.lexemes ++ owner.lexeme ::
      (grouped .round ps ++ (ts.lexemes ++ grouped .curly body))
  | .compact _ g? body => g?.elim [] Angles.lexemes ++ owner.lexeme :: grouped .curly body
  | .method _ g? t n ps ts ending => g?.elim [] Generics.lexemes ++ (t.lexemes ++ n.lexeme ::
      (grouped .round ps ++ (ts.lexemes ++ ending.lexemes)))
  | .type d => d.tail
  | .initializer isStatic body =>
    (if isStatic then [.keyword (.modifier .static)] else []) ++ grouped .curly body
  | .empty => [.mark .semicolon]

def Member.allLexemes (owner : Name) : List Member → List Lexeme
  | [] => []
  | m :: ms => m.modifiers.flatMap Modifier.lexemes ++ (m.tail owner ++ Member.allLexemes owner ms)

end

def Member.lexemes (owner : Name) (m : Member) : List Lexeme :=
  m.modifiers.flatMap Modifier.lexemes ++ m.tail owner

theorem Member.allLexemes_cons (owner : Name) (m : Member) (ms : List Member) :
    Member.allLexemes owner (m :: ms) = m.lexemes owner ++ Member.allLexemes owner ms := by
  rw [Member.allLexemes, Member.lexemes, List.append_assoc]

def TypeDecl.lexemes (d : TypeDecl) : List Lexeme :=
  d.modifiers.flatMap Modifier.lexemes ++ d.tail

namespace File

def package (f : File) : List Lexeme :=
  f.package?.elim [] fun d => .keyword .package :: (d.lexemes ++ [.mark .semicolon])

def lexemes (f : File) : List Lexeme :=
  f.package ++ (f.imports.flatMap (fun s => .keyword .import :: (s.lexemes ++ [.mark .semicolon])) ++
    f.types.flatMap TypeDecl.lexemes)

end File

/-! The tree to be read. -/

mutual

def TypeDecl.tree : TypeDecl → MemberOrder.TypeDecl Unit String
  | .mk kind name ms _ members =>
    .mk kind.kind name.text (Modifier.tree ms) (Member.trees name members) () ()

def Member.tree (owner : Name) : Member → MemberOrder.Member Unit String
  | .field ms _ t n _ more =>
    .field (Modifier.tree ms) (textOf t.lexemes) (n.text :: more.map (·.1.text)) ()
  | .constructor ms .. => .constructor (Modifier.tree ms) owner.text false ()
  | .compact ms .. => .constructor (Modifier.tree ms) owner.text true ()
  | .method ms _ t n _ _ ending =>
    .method (Modifier.tree ms) n.text (textOf t.lexemes) ending.hasBody ()
  | .type d => .type d.tree
  | .initializer isStatic _ => .initializer isStatic ()
  | .empty => .empty ()

def Member.trees (owner : Name) : List Member → List (MemberOrder.Member Unit String)
  | [] => []
  | m :: ms => m.tree owner :: Member.trees owner ms

end

def File.tree (f : File) : CompilationUnit Unit String :=
  ⟨f.package?.map DottedName.text, f.types.map TypeDecl.tree⟩

/-! What may be written. -/

mutual

def TypeDecl.Every (p : TypeDecl → Prop) (q : Kind → Member → Prop) : TypeDecl → Prop
  | .mk kind name ms header members =>
    p (.mk kind name ms header members) ∧ Member.EveryOf p q kind members

def Member.Every (p : TypeDecl → Prop) (q : Kind → Member → Prop) : Member → Prop
  | .type d => d.Every p q
  | _ => True

def Member.EveryOf (p : TypeDecl → Prop) (q : Kind → Member → Prop) (kind : Kind) :
    List Member → Prop
  | [] => True
  | m :: ms => (q kind m ∧ m.Every p q) ∧ Member.EveryOf p q kind ms

end

def Member.Fits (kind : Kind) : Member → Prop
  | compact .. => kind = .record
  | _ => True

def File.WellFormed (f : File) : Prop :=
  ∀ d ∈ f.types, d.Every (fun _ => True) Member.Fits

def Kind.isSealable : Kind → Prop
  | «class» | interface | annotationType => True
  | record | enum _ _ => False

/-- Each `sealed` has another modifier right behind it, or stands last and `last` holds. -/
def Modifier.Sealed (last : Prop) : List Modifier → Prop
  | [] => True
  | [.sealed] => last
  | .sealed :: .sealed :: _ => False
  | _ :: ms => Modifier.Sealed last ms

/-- Without type parameters a member does not have the name `record` alone for its type. -/
def TypeUse.NotRecord (generics? : Option Generics) (t : TypeUse) : Prop :=
  generics? = none → t.name.text = "record" → t.parts ≠ []

def TypeDecl.Clear : TypeDecl → Prop
  | mk kind _ ms _ _ => Modifier.Sealed kind.isSealable ms

def Member.Clear (kind : Kind) : Member → Prop
  | field ms g? t .. | method ms g? t .. => Modifier.Sealed False ms ∧ t.NotRecord g?
  | constructor ms .. => Modifier.Sealed False ms
  | compact ms .. => Modifier.Sealed False ms ∧ kind = .record
  | type _ | initializer .. | empty => True

/-- Only a record has compact constructors, and the words `sealed` and `record` are not used where
they are taken for something else. -/
def File.Clear (f : File) : Prop :=
  ∀ d ∈ f.types, d.Every TypeDecl.Clear Member.Clear

end MemberOrder.Written
