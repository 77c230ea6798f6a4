import MemberOrder.Declaration.Rule
/-! Members and type declarations, and the names, annotations, modifiers and types in them. -/
namespace MemberOrder.Rule

def dottedPart : Rule (Option String)
  | .mark .dot :: .identifier n :: s => .ok (some n) s
  | s => .ok none s

def qualifiedName : Rule String := do
  let n ← identifier
  let more ← many dottedPart
  return ".".intercalate (n :: more)

def annotationTail : Rule String := do
  let n ← qualifiedName
  if nextIs (.opening .round) (← get) then group .round
  return n

/-- Does `sealed` act as a modifier in front of these symbols? -/
def sealsNext : List Symbol → Bool
  | .keyword (.modifier _) :: _ | .keyword .class :: _ | .keyword .interface :: _
  | .mark .atSign :: _ => true
  | _ => false

def modifier : Rule (Option (Modifier ⊕ String)) := do
  match ← get with
  | .keyword (.modifier w) :: _ =>
    skip
    return some (.inl (.reserved w))
  | .identifier n :: s =>
    if n = "sealed" ∧ sealsNext s then
      skip
      return some (.inl .sealed)
    else return none
  | .mark .atSign :: .keyword .interface :: _ => return none
  | .mark .atSign :: _ =>
    skip
    return some (.inr (← annotationTail))
  | _ => return none

def modifiers : Rule (Modifiers Extent) := do
  let start ← unread
  let found ← many modifier
  return {
    keywords := found.filterMap Sum.getLeft?
    annotations := found.filterMap Sum.getRight?
    first? := if found.isEmpty then none else some ⟨start, start - 1⟩ }

def annotationOnType : Rule (Option String) := do
  if nextIs (.mark .atSign) (← get) then
    skip
    return some (← annotationTail)
  else return none

def typePart : Rule (Option Unit) := do
  match ← get with
  | .mark .less :: _ =>
    angles
    return some ()
  | .mark .dot :: .identifier _ :: _ | .opening .square :: .closing .square :: _ =>
    skip
    skip
    return some ()
  | .mark .dot :: .mark .atSign :: _ =>
    skip
    let _ ← many annotationOnType
    let _ ← identifier
    return some ()
  | _ => return none

/-- A type. Annotations in front do not belong to it. -/
def type : Rule Extent := do
  let _ ← many annotationOnType
  let start ← unread
  let _ ← identifier
  let _ ← many typePart
  return ⟨start, ← unread⟩

end MemberOrder.Rule

namespace MemberOrder

abbrev RawType := TypeDecl Extent Extent

abbrev RawMember := Member Extent Extent

namespace Rule

def since (start : Nat) : Rule Extent := do
  return ⟨start, ← unread⟩

def initializer (start : Nat) (isStatic : Bool) : Rule RawMember := do
  group .curly
  return .initializer isStatic (← since start)

def constructor (start : Nat) (m : Modifiers Extent) (compact : Bool) : Rule RawMember := do
  let name ← identifier
  if !compact then
    group .round
    skipTo (nextIs (.opening .curly))
  group .curly
  return .constructor m name compact (← since start)

def method (start : Nat) (m : Modifiers Extent) (result : Extent) (name : String) :
    Rule RawMember := do
  group .round
  skipTo fun s => nextIs (.opening .curly) s || nextIs (.mark .semicolon) s ||
    nextIs (.keyword (.modifier .default)) s
  let hasBody := nextIs (.opening .curly) (← get)
  if hasBody then group .curly else statement
  return .method m name result hasBody (← since start)

/-- At a comma in an initializer: does another name follow? Commas between type arguments are
not in brackets, so what stands behind the comma decides. -/
def declaratorFollows : List Symbol → Bool
  | .mark .comma :: .identifier _ :: .mark .equals :: _
  | .mark .comma :: .identifier _ :: .mark .comma :: _
  | .mark .comma :: .identifier _ :: .mark .semicolon :: _
  | .mark .comma :: .identifier _ :: .opening .square :: _ => true
  | _ => false

def dimension : Rule (Option Unit) := do
  if nextIs (.opening .square) (← get) then
    group .square
    return some ()
  else return none

def nextDeclarator : Rule (Option String) := do
  let _ ← many dimension
  if nextIs (.mark .equals) (← get) then
    skip
    skipTo fun s => nextIs (.mark .semicolon) s || declaratorFollows s
  match ← get with
  | .mark .semicolon :: _ =>
    skip
    return none
  | .mark .comma :: _ =>
    skip
    return some (← identifier)
  | _ => refuseRead (.symbol (.mark .semicolon))

def field (start : Nat) (m : Modifiers Extent) (type : Extent) (name : String) :
    Rule RawMember := do
  let more ← many nextDeclarator
  return .field m type (name :: more) (← since start)

def declaresType : List Symbol → Bool
  | .keyword .class :: _ | .keyword .interface :: _ | .keyword .enum :: _
  | .mark .atSign :: .keyword .interface :: _ => true
  | .identifier n :: .identifier _ :: _ => n = "record"
  | _ => false

/-- Of a constructor of `owner` at hand: is it compact? Only a record has compact ones. -/
def constructorForm? (kind : TypeKind) (owner : String) : List Symbol → Option Bool
  | .identifier n :: .opening .round :: _ => if n = owner then some false else none
  | .identifier n :: .opening .curly :: _ =>
    if n = owner ∧ kind = .record then some true else none
  | _ => none

def modifiedMember (nested : Nat → Modifiers Extent → Rule RawType) (kind : TypeKind)
    (owner : String) (start : Nat) (m : Modifiers Extent) : Rule RawMember := do
  if declaresType (← get) then
    return .type (← nested start m)
  if nextIs (.mark .less) (← get) then angles
  match constructorForm? kind owner (← get) with
  | some compact => constructor start m compact
  | none =>
    let type ← type
    let name ← identifier
    if nextIs (.opening .round) (← get) then method start m type name
    else field start m type name

def member (nested : Nat → Modifiers Extent → Rule RawType) (kind : TypeKind) (owner : String) :
    Rule RawMember := do
  let start ← unread
  match ← get with
  | .mark .semicolon :: _ =>
    skip
    return .empty (← since start)
  | .opening .curly :: _ => initializer start false
  | .keyword (.modifier .static) :: .opening .curly :: _ =>
    skip
    initializer start true
  | _ => modifiedMember nested kind owner start (← modifiers)

def member? (nested : Nat → Modifiers Extent → Rule RawType) (kind : TypeKind) (owner : String) :
    Rule (Option RawMember) := do
  match ← get with
  | .closing .curly :: _ => return none
  | [] => refuse (.symbol (.closing .curly))
  | _ => return some (← member nested kind owner)

def typeKeyword : Rule TypeKind
  | .keyword .class :: s => .ok .class s
  | .keyword .interface :: s => .ok .interface s
  | .keyword .enum :: s => .ok .enum s
  | .mark .atSign :: s => (do expect (.keyword .interface); return .annotationType : Rule TypeKind) s
  | .identifier n :: s =>
    if n = "record" then .ok .record s else refuseRead .typeKeyword (.identifier n :: s)
  | s => refuseRead .typeKeyword s

def enumConstants : Rule Unit := do
  skipTo fun s => nextIs (.mark .semicolon) s || nextIs (.closing .curly) s
  if nextIs (.mark .semicolon) (← get) then skip

def typeDeclOver (nested : Nat → Modifiers Extent → Rule RawType) (start : Nat)
    (m : Modifiers Extent) : Rule RawType := do
  let kind ← typeKeyword
  let name ← identifier
  skipTo (nextIs (.opening .curly))
  let opened ← unread
  expect (.opening .curly)
  if kind = .enum then enumConstants
  let members ← many (member? nested kind name)
  expect (.closing .curly)
  return .mk kind name m members (← since opened) (← since start)

def typeDecl : Nat → Nat → Modifiers Extent → Rule RawType
  | 0, _, _ => refuse .typeKeyword
  | depth + 1, start, m => typeDeclOver (typeDecl depth) start m

end Rule

end MemberOrder
