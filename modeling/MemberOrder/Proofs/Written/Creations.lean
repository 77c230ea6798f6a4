import MemberOrder.Proofs.Written.Surroundings
/-! Fields whose values create objects of generic types. The commas between type arguments are not in
brackets; at each of them the two tokens behind it decide whether the next name of the field follows, so
some type arguments are taken for names. Which ones, is decided by `Field.isWhole`. Main statement:
`parse_field`. -/
namespace MemberOrder.Written

open Rule

def Name.new : Name where
  text := "new"
  cut := scan_of_token (by decide +kernel)

def Name.super : Name where
  text := "super"
  cut := scan_of_token (by decide +kernel)

inductive Bound
  | upper | lower

mutual

inductive TypeArgument
  | wildcard
  | type (bound? : Option Bound) (name : Name) (parts : List ArgumentPart)

inductive ArgumentPart
  | inner (name : Name)
  | arguments (first : TypeArgument) (more : List TypeArgument)
  | dimension

end

structure Creation where
  name : DottedName
  first : TypeArgument
  more : List TypeArgument
  arguments : Stretch []

inductive Value
  | plain (d : Declarator)
  | creation (c : Creation)

structure Field where
  modifiers : List Modifier
  type : TypeUse
  name : Name
  value : Value
  more : List (Name × Value)

/-! The tokens. -/

def Bound.lexemes : Bound → List Lexeme
  | upper => [.mark .question, .keyword .extends]
  | lower => [.mark .question, Name.super.lexeme]

mutual

def TypeArgument.lexemes : TypeArgument → List Lexeme
  | .wildcard => [.mark .question]
  | .type bound? name parts =>
    bound?.elim [] Bound.lexemes ++ name.lexeme :: ArgumentPart.allLexemes parts

def ArgumentPart.lexemes : ArgumentPart → List Lexeme
  | .inner name => [.mark .dot, name.lexeme]
  | .arguments first more => .mark .less :: (first.lexemes ++ TypeArgument.moreLexemes more)
  | .dimension => [.opening .square, .closing .square]

def ArgumentPart.allLexemes : List ArgumentPart → List Lexeme
  | [] => []
  | p :: ps => p.lexemes ++ ArgumentPart.allLexemes ps

def TypeArgument.moreLexemes : List TypeArgument → List Lexeme
  | [] => [.mark .greater]
  | a :: as => .mark .comma :: (a.lexemes ++ TypeArgument.moreLexemes as)

end

def Creation.lexemes (c : Creation) : List Lexeme :=
  Name.new.lexeme :: (c.name.lexemes ++
    ((ArgumentPart.arguments c.first c.more).lexemes ++ grouped .round c.arguments))

def Value.lexemes : Value → List Lexeme
  | plain d => d.lexemes
  | creation c => .mark .equals :: c.lexemes

def values (v : Value) (more : List (Name × Value)) : List Lexeme :=
  v.lexemes ++ (more.flatMap (fun (n, v) => .mark .comma :: n.lexeme :: v.lexemes) ++
    [.mark .semicolon])

def Field.lexemes (f : Field) : List Lexeme :=
  f.modifiers.flatMap Modifier.lexemes ++
    (f.type.lexemes ++ f.name.lexeme :: values f.value f.more)

/-! The tree to be read, without the text of types. -/

def Field.names (f : Field) : List String :=
  f.name.text :: f.more.map (·.1.text)

def Field.outline (f : Field) : MemberOrder.Member Unit Unit :=
  .field (Modifier.tree f.modifiers) () f.names ()

/-! What may be written. -/

def Field.Clear (f : Field) : Prop :=
  Modifier.Sealed False f.modifiers ∧ f.type.NotRecord none

/-! Which commas are taken for those between the names of a field. -/

/-- Behind a comma, is it taken for the next name of the field? So is a name alone, unless it is the
last type argument, and a name that has dimensions. -/
def TypeArgument.isMistaken (isLast : Bool) : TypeArgument → Bool
  | .type none _ [] => !isLast
  | .type none _ (.dimension :: _) => true
  | _ => false

mutual

def TypeArgument.isWhole : TypeArgument → Bool
  | .wildcard => true
  | .type _ _ parts => ArgumentPart.areWhole parts

def ArgumentPart.isWhole : ArgumentPart → Bool
  | .inner _ | .dimension => true
  | .arguments first more => first.isWhole && TypeArgument.areWhole more

def ArgumentPart.areWhole : List ArgumentPart → Bool
  | [] => true
  | p :: ps => p.isWhole && ArgumentPart.areWhole ps

def TypeArgument.areWhole : List TypeArgument → Bool
  | [] => true
  | a :: as => !a.isMistaken as.isEmpty && (a.isWhole && TypeArgument.areWhole as)

end

def Creation.isWhole (c : Creation) : Bool :=
  (ArgumentPart.arguments c.first c.more).isWhole

def Value.isWhole : Value → Bool
  | plain _ => true
  | creation c => c.isWhole

def Field.isWhole (f : Field) : Bool :=
  f.value.isWhole && f.more.all (·.2.isWhole)

/-- The comma between two type arguments ends the declarator iff the argument behind it is mistaken. -/
theorem endsDeclarator_argument (a : TypeArgument) (as : List TypeArgument) (s : List Symbol) :
    endsDeclarator (.mark .comma :: (symbols (a.lexemes ++ TypeArgument.moreLexemes as) ++ s)) =
      a.isMistaken as.isEmpty := by
  cases a with
  | wildcard => rw [TypeArgument.lexemes]; rfl
  | type bound? n parts =>
    rw [TypeArgument.lexemes]
    cases bound? with
    | some b => cases b <;> rfl
    | none =>
      cases parts with
      | nil =>
        rw [ArgumentPart.allLexemes]
        cases as <;> rw [TypeArgument.moreLexemes] <;> rfl
      | cons p ps =>
        rw [ArgumentPart.allLexemes]
        cases p <;> rw [ArgumentPart.lexemes] <;> rfl

/-! Names of a field behind which it does not go on. -/

def Refused (s : List Symbol) : Prop :=
  ∃ e u, many nextDeclarator s = .error e u

theorem refused_of_error {s u : List Symbol} {e : Refusal} (h : nextDeclarator s = .error e u) :
    Refused s := by
  refine ⟨e, u, ?_⟩
  rw [many, h]

theorem Refused.of_eq {s t : List Symbol} (ht : Refused t) (h : nextDeclarator s = nextDeclarator t)
    (hle : t.length ≤ s.length) : Refused s := by
  obtain ⟨e, u, hu⟩ := ht
  rw [many] at hu
  split at hu
  next e' u' he => exact refused_of_error (h.trans he)
  next => cases hu
  next n t' hn =>
    split at hu
    next hlt =>
      split at hu
      next e' u' he =>
        refine ⟨e', u', ?_⟩
        rw [many, h, hn]
        simp only [if_pos (hlt.trans_le hle), he]
      next => cases hu
    next => cases hu

theorem Refused.comma {s : List Symbol} (hs : Refused s) (n : String) :
    Refused (.mark .comma :: .identifier n :: s) := by
  obtain ⟨e, u, hu⟩ := hs
  refine ⟨e, u, ?_⟩
  rw [many, nextDeclarator_comma]
  simp only [List.length_cons, hu]
  rw [if_pos (by omega)]

theorem refused_of_head {x : Symbol} (hx : x ∈ [.mark .greater, .mark .dot, .mark .less])
    (s : List Symbol) : Refused (x :: s) := by
  simp only [List.mem_cons, List.not_mem_nil, or_false] at hx
  have hnone : many dimension (x :: s) = .ok [] (x :: s) :=
    many_dimension [] (by obtain rfl | rfl | rfl := hx <;> simp)
  obtain ⟨e, u, hu⟩ : ∃ e u, nextDeclarator (x :: s) = .error e u := by
    unfold nextDeclarator
    rw [bind_of_ok hnone]
    obtain rfl | rfl | rfl := hx <;> exact ⟨_, _, rfl⟩
  exact refused_of_error hu

theorem refused_of_question (s : List Symbol) : Refused (.mark .comma :: .mark .question :: s) := by
  have hnone : many dimension (.mark .comma :: .mark .question :: s) =
      .ok [] (.mark .comma :: .mark .question :: s) := many_dimension [] (by simp)
  obtain ⟨e, u, hu⟩ : ∃ e u, nextDeclarator (.mark .comma :: .mark .question :: s) = .error e u := by
    unfold nextDeclarator
    rw [bind_of_ok hnone]
    exact ⟨_, _, rfl⟩
  exact refused_of_error hu

theorem refused_parts (parts : List ArgumentPart) {s : List Symbol} (hs : Refused s) :
    Refused (symbols (ArgumentPart.allLexemes parts) ++ s) := by
  induction parts with
  | nil =>
    rw [ArgumentPart.allLexemes]
    exact hs
  | cons p ps ih =>
    rw [ArgumentPart.allLexemes, symbols_append, List.append_assoc]
    cases p with
    | inner n =>
      rw [ArgumentPart.lexemes]
      exact refused_of_head (by simp) _
    | arguments first more =>
      rw [ArgumentPart.lexemes]
      exact refused_of_head (by simp) _
    | dimension =>
      rw [ArgumentPart.lexemes]
      exact ih.of_eq (nextDeclarator_grouped .nil _) (by simp; omega)

theorem refused_arguments (as : List TypeArgument) (s : List Symbol) :
    Refused (symbols (TypeArgument.moreLexemes as) ++ s) := by
  induction as with
  | nil =>
    rw [TypeArgument.moreLexemes]
    exact refused_of_head (by simp) s
  | cons a as ih =>
    rw [TypeArgument.moreLexemes, symbols_cons, symbols_append, List.cons_append, List.append_assoc]
    cases a with
    | wildcard =>
      rw [TypeArgument.lexemes]
      exact refused_of_question _
    | type bound? n parts =>
      rw [TypeArgument.lexemes]
      cases bound? with
      | some b => cases b <;> exact refused_of_question _
      | none =>
        exact (refused_parts parts ih).comma n.text

/-! Reading over a value. -/

/-- Reading up to the end of a declarator goes on behind these tokens, or it stops at one of them, and
from there on the names of the field cannot be read. -/
structure Passes (ls : List Lexeme) (isWhole : Bool) : Prop where
  passed (h : isWhole = true) (s : List Symbol) :
    skipTo endsDeclarator (symbols ls ++ s) = skipTo endsDeclarator s
  stopped (h : isWhole = false) (s : List Symbol) :
    ∃ t, skipTo endsDeclarator (symbols ls ++ s) = .ok () t ∧ Refused t

theorem Passes.nil : Passes [] true :=
  ⟨fun _ _ => rfl, fun h => by cases h⟩

theorem Passes.append {ls ms : List Lexeme} {b c : Bool} (hl : Passes ls b) (hm : Passes ms c) :
    Passes (ls ++ ms) (b && c) := by
  refine ⟨fun h s => ?_, fun h s => ?_⟩
  · obtain ⟨hb, hc⟩ := Bool.and_eq_true_iff.1 h
    rw [symbols_append, List.append_assoc, hl.passed hb, hm.passed hc]
  · rw [symbols_append, List.append_assoc]
    cases hb : b with
    | false => exact hl.stopped hb _
    | true =>
      rw [hl.passed hb]
      exact hm.stopped (by simpa [hb] using h) s

theorem Passes.plain {l : Lexeme} (hplain : l.symbol.isPlain)
    (hl : l.symbol ≠ .mark .semicolon ∧ l.symbol ≠ .mark .comma) : Passes [l] true :=
  ⟨fun _ s => skipTo_plain hplain (not_endsDeclarator hl s), fun h => by cases h⟩

theorem Passes.grouped (b : Bracket) (c : Stretch []) : Passes (grouped b c) true := by
  refine ⟨fun _ s => ?_, fun h => by cases h⟩
  simp only [Written.grouped, symbols_cons, symbols_append, symbols_nil, List.cons_append,
    List.append_assoc, List.nil_append, Lexeme.symbol_opening, Lexeme.symbol_closing]
  exact skipTo_group c.balanced.balanced (not_endsDeclarator (by simp) _)

theorem Passes.behind {ls ms : List Lexeme} {b : Bool} (hl : Passes ls true) (hm : Passes ms b) :
    Passes (ls ++ ms) b := by
  simpa using hl.append hm

theorem Passes.comma {a : TypeArgument} {as : List TypeArgument} {b : Bool}
    (h : Passes (a.lexemes ++ TypeArgument.moreLexemes as) b) :
    Passes (TypeArgument.moreLexemes (a :: as)) (!a.isMistaken as.isEmpty && b) := by
  have hends := endsDeclarator_argument a as
  refine ⟨fun hall s => ?_, fun hall s => ?_⟩
  · obtain ⟨hm, hb⟩ : a.isMistaken as.isEmpty = false ∧ b = true := by simpa using hall
    rw [TypeArgument.moreLexemes, symbols_cons, List.cons_append, Lexeme.symbol_mark,
      skipTo_plain rfl ((hends s).trans hm), h.passed hb]
  · cases hm : a.isMistaken as.isEmpty with
    | true =>
      refine ⟨_, skipTo_of_stop ?_, refused_arguments (a :: as) s⟩
      rw [TypeArgument.moreLexemes]
      exact (hends s).trans hm
    | false =>
      rw [TypeArgument.moreLexemes, symbols_cons, List.cons_append, Lexeme.symbol_mark,
        skipTo_plain rfl ((hends s).trans hm)]
      exact h.stopped (by simpa [hm] using hall) s

theorem Passes.cons {l : Lexeme} {ls : List Lexeme} {b : Bool} (hl : Passes [l] true)
    (h : Passes ls b) : Passes (l :: ls) b :=
  hl.behind h

theorem Passes.name (n : Name) : Passes [n.lexeme] true :=
  .plain rfl (by simp)

theorem Passes.mark {m : Mark} (hm : m ≠ .semicolon ∧ m ≠ .comma) : Passes [.mark m] true :=
  .plain rfl (by simpa using hm)

theorem Bound.passes (bound? : Option Bound) : Passes (bound?.elim [] Bound.lexemes) true := by
  cases bound? with
  | none => exact .nil
  | some b =>
    cases b with
    | upper => exact .cons (.mark (by simp)) (.plain rfl (by simp))
    | lower => exact .cons (.mark (by simp)) (.name .super)

mutual

theorem TypeArgument.passes : ∀ a : TypeArgument, Passes a.lexemes a.isWhole
  | .wildcard => by
    rw [TypeArgument.lexemes, TypeArgument.isWhole]
    exact .mark (by simp)
  | .type bound? n parts => by
    rw [TypeArgument.lexemes, TypeArgument.isWhole]
    exact (Bound.passes bound?).behind (.cons (.name n) (ArgumentPart.passes_all parts))

theorem ArgumentPart.passes : ∀ p : ArgumentPart, Passes p.lexemes p.isWhole
  | .inner n => by
    rw [ArgumentPart.lexemes, ArgumentPart.isWhole]
    exact .cons (.mark (by simp)) (.name n)
  | .arguments first more => by
    rw [ArgumentPart.lexemes, ArgumentPart.isWhole]
    exact .cons (.mark (by simp)) (first.passes.append (TypeArgument.passes_more more))
  | .dimension => by
    rw [ArgumentPart.lexemes, ArgumentPart.isWhole]
    exact .grouped .square .nil

theorem ArgumentPart.passes_all : ∀ ps : List ArgumentPart,
    Passes (ArgumentPart.allLexemes ps) (ArgumentPart.areWhole ps)
  | [] => by
    rw [ArgumentPart.allLexemes, ArgumentPart.areWhole]
    exact .nil
  | p :: ps => by
    rw [ArgumentPart.allLexemes, ArgumentPart.areWhole]
    exact p.passes.append (ArgumentPart.passes_all ps)

theorem TypeArgument.passes_more : ∀ as : List TypeArgument,
    Passes (TypeArgument.moreLexemes as) (TypeArgument.areWhole as)
  | [] => by
    rw [TypeArgument.moreLexemes, TypeArgument.areWhole]
    exact .mark (by simp)
  | a :: as => by
    rw [TypeArgument.areWhole]
    exact (a.passes.append (TypeArgument.passes_more as)).comma

end

theorem DottedName.passes (d : DottedName) : Passes d.lexemes true := by
  obtain ⟨first, more⟩ := d
  have hmore : Passes (more.flatMap fun n => [.mark .dot, n.lexeme]) true := by
    induction more with
    | nil => exact .nil
    | cons n ns ih => exact .cons (.mark (by simp)) (.cons (.name n) ih)
  exact .cons (.name first) hmore

theorem Creation.passes (c : Creation) : Passes c.lexemes c.isWhole := by
  have hbehind := (ArgumentPart.arguments c.first c.more).passes.append
    (Passes.grouped .round c.arguments)
  rw [Bool.and_true] at hbehind
  exact .cons (.name .new) (c.name.passes.behind hbehind)

/-! The names of a field. -/

theorem nextDeclarator_value (v : Value) {s : List Symbol} (hs : endsDeclarator s) :
    (v.isWhole = true → nextDeclarator (symbols v.lexemes ++ s) = nextDeclarator s) ∧
      (v.isWhole = false → Refused (symbols v.lexemes ++ s)) := by
  cases v with
  | plain d => exact ⟨fun _ => nextDeclarator_declarator d hs, fun h => by cases h⟩
  | creation c =>
    refine ⟨fun h => ?_, fun h => ?_⟩
    · exact nextDeclarator_equals ((c.passes.passed h s).trans (skipTo_of_stop hs))
    · obtain ⟨t, ht, hrefused⟩ := c.passes.stopped h s
      obtain ⟨u, hu, _⟩ := balanced_of_skipTo ht
      refine hrefused.of_eq (nextDeclarator_equals ht) ?_
      have hlen := congrArg List.length hu
      simp only [List.length_append] at hlen
      simp only [Value.lexemes, symbols_cons, List.length_append, List.length_cons]
      omega

theorem endsDeclarator_values (n : String) (v : Value) (more : List (Name × Value)) (s : List Symbol) :
    endsDeclarator (.mark .comma :: .identifier n :: (symbols (values v more) ++ s)) := by
  rw [values, symbols_append, List.append_assoc]
  cases v with
  | creation c => rfl
  | plain d =>
    refine endsDeclarator_comma n d ?_
    cases more <;> simp

theorem many_nextDeclarator_values (v : Value) (more : List (Name × Value)) (s : List Symbol) :
    Answers (v.isWhole && more.all (·.2.isWhole)) (many nextDeclarator (symbols (values v more) ++ s)) s
      (· = more.map (·.1.text)) := by
  induction more generalizing v with
  | nil =>
    have hv : symbols (values v []) ++ s = symbols v.lexemes ++ .mark .semicolon :: s := by
      simp [values]
    have hs : endsDeclarator (.mark .semicolon :: s) := by simp [endsDeclarator]
    obtain ⟨hwhole, hmistaken⟩ := nextDeclarator_value v hs
    rw [hv, List.all_nil, Bool.and_true]
    refine ⟨fun h => ⟨[], many_nil ?_, rfl⟩, hmistaken⟩
    rw [hwhole h, nextDeclarator_semicolon]
  | cons e more ih =>
    have hv : symbols (values v (e :: more)) ++ s = symbols v.lexemes ++
        .mark .comma :: .identifier e.1.text :: (symbols (values e.2 more) ++ s) := by
      simp [values]
    obtain ⟨hwhole, hmistaken⟩ := nextDeclarator_value v (endsDeclarator_values e.1.text e.2 more s)
    rw [hv, List.all_cons]
    cases hw : v.isWhole with
    | false => exact ⟨fun h => (by cases h), fun _ => hmistaken hw⟩
    | true =>
      have hread : nextDeclarator (symbols v.lexemes ++
          .mark .comma :: .identifier e.1.text :: (symbols (values e.2 more) ++ s)) =
          .ok (some e.1.text) (symbols (values e.2 more) ++ s) := by
        rw [hwhole hw, nextDeclarator_comma]
      have hmore := (ih e.2).chain (.cons hread (by simp; omega) (.nil _))
      rw [Bool.true_and]
      refine ⟨fun h => ?_, hmore.refused⟩
      obtain ⟨_, hok, _, rfl, rfl⟩ := hmore.accepted h
      exact ⟨_, hok, rfl⟩

theorem not_nextIs_of_endsDeclarator {n : String} {s : List Symbol}
    (h : endsDeclarator (.mark .comma :: .identifier n :: s)) : ¬ nextIs (.opening .round) s := by
  intro hround
  obtain ⟨t, rfl⟩ := nextIs_iff.1 hround
  simp [endsDeclarator, declaratorFollows] at h

theorem member_values (nested : Nat → Modifiers Extent → Rule RawType) (kind : TypeKind)
    (owner : String) {f : Field} (hseal : Modifier.Sealed False f.modifiers)
    (ht : f.type.NotRecord none) (s : List Symbol) :
    ∃ start m, m.map (fun _ => ()) = Modifier.tree f.modifiers ∧
      Answers f.isWhole (member nested kind owner (symbols f.lexemes ++ s)) s
        (· = .field m
          ⟨(symbols (f.type.lexemes ++ f.name.lexeme :: values f.value f.more) ++ s).length,
            (symbols (f.name.lexeme :: values f.value f.more) ++ s).length⟩ f.names
          ⟨start, s.length⟩) := by
  have hsymbols : symbols f.lexemes ++ s = symbols (f.modifiers.flatMap Modifier.lexemes) ++
      (symbols ((none : Option Generics).elim [] Generics.lexemes ++ f.type.lexemes) ++
        .identifier f.name.text :: (symbols (values f.value f.more) ++ s)) := by
    simp [Field.lexemes]
  have hround := not_nextIs_of_endsDeclarator (endsDeclarator_values f.name.text f.value f.more s)
  obtain ⟨start, m, hm, hmember⟩ := member_of_tail nested kind owner
    (opens_typed none f.type f.name.text (symbols (values f.value f.more) ++ s)) hseal False.elim
  refine ⟨start, m, hm, ?_⟩
  rw [hsymbols, hmember, modifiedMember_typed start m ht, if_neg hround]
  refine (many_nextDeclarator_values f.value f.more s).bind ?_
  rintro _ rfl
  exact ⟨_, rfl, by simp [Field.names]⟩

theorem Field.answers {f : Field} (hf : f.Clear) (nested : Nat → Modifiers Extent → Rule RawType)
    (kind : TypeKind) (owner : String) (s : List Symbol) :
    Answers f.isWhole (member nested kind owner (symbols f.lexemes ++ s)) s
      (·.map (fun _ => ()) (fun _ => ()) = f.outline) := by
  obtain ⟨start, m, hm, hanswers⟩ := member_values nested kind owner hf.1 hf.2 s
  refine ⟨fun h => ?_, hanswers.refused⟩
  obtain ⟨_, hok, rfl⟩ := hanswers.accepted h
  exact ⟨_, hok, by rw [MemberOrder.Member.map, hm]; rfl⟩

theorem Field.readsAs {f : Field} (hf : f.Clear) : ReadsAs f.isWhole f.lexemes f.outline := by
  refine ⟨starts_modifiers f.modifiers ⟨_, _, rfl, by simp⟩, fun kind owner depth post _ => ?_⟩
  rw [symbols_append]
  exact f.answers hf (typeDecl depth) kind owner (symbols post)

/-- A field whose values create objects of generic types is one member with just the names that were
written, in any body and whatever comes behind it, and so it is in a file; unless a type argument is
taken for one of its names, when it is refused. -/
theorem parse_field {f : Field} (hf : f.Clear) :
    (∀ nested kind owner s, Answers f.isWhole (member nested kind owner (symbols f.lexemes ++ s)) s
      (·.map (fun _ => ()) (fun _ => ()) = f.outline)) ∧
    ∀ {c : Surroundings}, c.Clear → ∀ {source ts}, tokenize source = .ok ts →
      ts.symbols = symbols (c.lexemes f.lexemes) →
      (f.isWhole = true →
        ∃ u, parse source = .ok u ∧ u.map (fun _ => ()) (fun _ => ()) = c.outline f.outline) ∧
      (f.isWhole = false → ∃ e, parse source = .error e) :=
  ⟨f.answers hf, fun hc _ _ hts hsymbols =>
    Surroundings.parse_answers hc (f.readsAs hf) hts hsymbols⟩

/-- `final Box item = new Box < item , Box < item , item > [ ] , ? extends Box . item >
( item , item ) , Box ;`. -/
def Field.boxes : Field where
  modifiers := [.reserved .final]
  type := ⟨.box, []⟩
  name := .item
  value := .creation {
    name := ⟨.box, []⟩
    first := .type none .item []
    more := [.type none .box [.arguments (.type none .item []) [.type none .item []], .dimension],
      .type (some .upper) .box [.inner .item]]
    arguments := ⟨[Name.item.lexeme, .mark .comma, Name.item.lexeme],
      .plain rfl rfl (.plain rfl rfl (.plain rfl rfl .nil))⟩ }
  more := [(.box, .plain ⟨[], none⟩)]

/-- `class Box { Box ( ) { } static class item { … ; } }`. -/
def Surroundings.boxes : Surroundings where
  front := ⟨none, [], []⟩
  nested := [{
    kind := .class
    name := .item
    modifiers := [.reserved .static]
    header := .nil
    before := []
    after := [.empty] }]
  outermost := {
    kind := .class
    name := .box
    modifiers := []
    header := .nil
    before := [.constructor [] none .nil .nil .nil]
    after := [] }
  after := []

theorem parse_field_boxes : Field.boxes.Clear ∧ Surroundings.boxes.Clear ∧ Field.boxes.isWhole ∧
    ∃ u, parse (write (Surroundings.boxes.lexemes Field.boxes.lexemes)) = .ok u ∧
      u.map (fun _ => ()) (fun _ => ()) = Surroundings.boxes.outline Field.boxes.outline := by
  have hf : Field.boxes.Clear := by
    simp [Field.Clear, Field.boxes, Modifier.Sealed, TypeUse.NotRecord, Name.box]
  have hc : Surroundings.boxes.Clear := by
    simp [Surroundings.Clear, Surroundings.boxes, File.Clear, Level.Clear, Modifier.Sealed,
      Member.EveryOf, Member.Every, Member.Clear]
  have hwhole : Field.boxes.isWhole := rfl
  have hread := (parse_field hf).2 hc (tokenize_write _) (symbol_tokens .start _)
  exact ⟨hf, hc, hwhole, hread.1 hwhole⟩

/-- `Box item = new Box < item , item , item > ( ) ;`. -/
def Field.items : Field where
  modifiers := []
  type := ⟨.box, []⟩
  name := .item
  value := .creation {
    name := ⟨.box, []⟩
    first := .type none .item []
    more := [.type none .item [], .type none .item []]
    arguments := .nil }
  more := []

/-- `class Box { … }`. -/
def Surroundings.box : Surroundings where
  front := ⟨none, [], []⟩
  nested := []
  outermost := ⟨.class, .box, [], .nil, [], []⟩
  after := []

/-- The second of three names in angle brackets is taken for one of the field. -/
theorem exists_field_refused : ¬ ∀ (f : Field) (v : Creation), f.value = .creation v → f.Clear →
    ∀ c : Surroundings, c.Clear → ∃ u, parse (write (c.lexemes f.lexemes)) = .ok u ∧
      u.map (fun _ => ()) (fun _ => ()) = c.outline f.outline := by
  intro h
  have hf : Field.items.Clear := by
    simp [Field.Clear, Field.items, Modifier.Sealed, TypeUse.NotRecord, Name.box]
  have hc : Surroundings.box.Clear := by
    simp [Surroundings.Clear, Surroundings.box, File.Clear, Level.Clear, Modifier.Sealed,
      Member.EveryOf]
  obtain ⟨u, hu, _⟩ := h Field.items _ rfl hf Surroundings.box hc
  obtain ⟨e, s, he⟩ : ∃ e s, file (symbols (Surroundings.box.lexemes Field.items.lexemes)) =
      .error e s := ⟨_, _, by cbv⟩
  rw [parse_write_eq, Reading.next, reading, he] at hu
  cases hu

end MemberOrder.Written
