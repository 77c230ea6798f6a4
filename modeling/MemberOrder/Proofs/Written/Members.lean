import MemberOrder.Declaration.Member
import MemberOrder.Proofs.Written.Modifiers
/-! Fields, methods and constructors are read as they are written. -/
namespace MemberOrder.Written

open Rule

theorem skipTo_stretch {stops : List Symbol} (c : Stretch stops) {stop : List Symbol → Bool}
    (hstop : ∀ x s, x ∉ stops → stop (x :: s) = false) {s : List Symbol} (hs : stop s) :
    skipTo stop (symbols c.lexemes ++ s) = .ok () s :=
  skipTo_append (fun x s hx => hstop x s (by simpa using hx)) c.balanced hs

theorem statement_append {c : List Symbol}
    (hc : BalancedOver (fun x => !([Symbol.mark .semicolon].contains x)) c) (s : List Symbol) :
    statement (c ++ .mark .semicolon :: s) = .ok () s := by
  have hskip : skipTo (nextIs (.mark .semicolon)) (c ++ .mark .semicolon :: s) =
      .ok () (.mark .semicolon :: s) :=
    skipTo_append (fun x s hx => by simpa using hx) hc (nextIs_self _ _)
  unfold statement
  rw [bind_of_ok hskip]
  rfl

theorem dimension_grouped (c : Stretch []) (s : List Symbol) :
    dimension (symbols (grouped .square c) ++ s) = .ok (some ()) s := by
  unfold dimension
  rw [get_bind, if_pos (by rfl), bind_of_ok (group_grouped .square c s)]
  rfl

theorem many_dimension (ds : List (Stretch [])) {s : List Symbol}
    (hs : s.head? ≠ some (.opening .square)) :
    many dimension (symbols (ds.flatMap (grouped .square)) ++ s) = .ok (ds.map fun _ => ()) s := by
  rw [symbols_flatMap]
  refine many_flatMap (q := fun _ => True) (by simp [grouped]) (fun _ _ => trivial)
    (fun c s _ => dimension_grouped c s) trivial ?_ ds
  unfold dimension
  rw [get_bind, if_neg (not_nextIs hs)]
  rfl

def endsDeclarator (s : List Symbol) : Bool :=
  nextIs (.mark .semicolon) s || declaratorFollows s

theorem head?_of_declaratorFollows {s : List Symbol} (h : declaratorFollows s) :
    s.head? = some (.mark .comma) := by
  unfold declaratorFollows at h
  split at h
  iterate 4 rfl
  cases h

theorem head?_of_endsDeclarator {s : List Symbol} (h : endsDeclarator s) :
    s.head? = some (.mark .semicolon) ∨ s.head? = some (.mark .comma) := by
  simp only [endsDeclarator, Bool.or_eq_true] at h
  obtain h | h := h
  · exact .inl (by simpa [nextIs] using h)
  · exact .inr (head?_of_declaratorFollows h)

theorem not_endsDeclarator {x : Symbol} (hx : x ≠ .mark .semicolon ∧ x ≠ .mark .comma)
    (s : List Symbol) : endsDeclarator (x :: s) = false := by
  by_contra h
  obtain h | h := head?_of_endsDeclarator (by simpa using h)
  · exact hx.1 (by simpa using h)
  · exact hx.2 (by simpa using h)

theorem nextDeclarator_grouped (c : Stretch []) (s : List Symbol) :
    nextDeclarator (symbols (grouped .square c) ++ s) = nextDeclarator s := by
  have hdimension := dimension_grouped c s
  have hlt : s.length < (symbols (grouped .square c) ++ s).length := by
    simp [grouped]
    omega
  unfold nextDeclarator
  cases hs : many dimension s with
  | ok ds t => rw [bind_of_ok (many_cons hdimension hlt hs), bind_of_ok hs]
  | error e t =>
    have hmore : many dimension (symbols (grouped .square c) ++ s) = .error e t := by
      rw [many, hdimension]
      simp only [if_pos hlt, hs]
    rw [bind_of_error hmore, bind_of_error hs]

theorem nextDeclarator_dimensions (ds : List (Stretch [])) (s : List Symbol) :
    nextDeclarator (symbols (ds.flatMap (grouped .square)) ++ s) = nextDeclarator s := by
  induction ds with
  | nil => rfl
  | cons c ds ih => rw [List.flatMap_cons, symbols_append, List.append_assoc, nextDeclarator_grouped, ih]

theorem nextDeclarator_equals {s t : List Symbol} (h : skipTo endsDeclarator s = .ok () t) :
    nextDeclarator (.mark .equals :: s) = nextDeclarator t := by
  obtain ⟨_, _, _, hends⟩ := balanced_of_skipTo h
  have hhead := head?_of_endsDeclarator hends
  have hsquare : t.head? ≠ some (.opening .square) := by
    obtain h | h := hhead <;> simp [h]
  have hequals : t.head? ≠ some (.mark .equals) := by
    obtain h | h := hhead <;> simp [h]
  have hnone : many dimension t = .ok [] t := many_dimension [] hsquare
  have hnone' : many dimension (.mark .equals :: s) = .ok [] (.mark .equals :: s) :=
    many_dimension [] (by simp)
  unfold nextDeclarator
  rw [bind_of_ok hnone, get_bind, if_neg (not_nextIs hequals), bind_of_ok hnone', get_bind,
    if_pos (nextIs_self _ _), skip_bind]
  exact bind_of_ok h

theorem nextDeclarator_declarator (d : Declarator) {s : List Symbol} (hs : endsDeclarator s) :
    nextDeclarator (symbols d.lexemes ++ s) = nextDeclarator s := by
  rw [Declarator.lexemes, symbols_append, List.append_assoc, nextDeclarator_dimensions]
  unfold Declarator.initializer
  cases d.initializer? with
  | none => rfl
  | some c =>
    refine nextDeclarator_equals (skipTo_stretch c (fun x s hx => ?_) hs)
    simp only [List.mem_cons, List.not_mem_nil, or_false, not_or] at hx
    exact not_endsDeclarator hx s

theorem nextDeclarator_semicolon (s : List Symbol) :
    nextDeclarator (.mark .semicolon :: s) = .ok none s := by
  have hnone : many dimension (.mark .semicolon :: s) = .ok [] (.mark .semicolon :: s) :=
    many_dimension [] (by simp)
  unfold nextDeclarator
  rw [bind_of_ok hnone]
  rfl

theorem nextDeclarator_comma (n : String) (s : List Symbol) :
    nextDeclarator (.mark .comma :: .identifier n :: s) = .ok (some n) s := by
  have hnone : many dimension (.mark .comma :: .identifier n :: s) =
      .ok [] (.mark .comma :: .identifier n :: s) := many_dimension [] (by simp)
  unfold nextDeclarator
  rw [bind_of_ok hnone]
  rfl

theorem endsDeclarator_comma (n : String) (d : Declarator) {s : List Symbol}
    (hs : s.head? = some (.mark .comma) ∨ s.head? = some (.mark .semicolon)) :
    endsDeclarator (.mark .comma :: .identifier n :: (symbols d.lexemes ++ s)) := by
  unfold Declarator.lexemes Declarator.initializer
  cases d.dimensions with
  | cons c cs => rfl
  | nil =>
    cases d.initializer? with
    | some c => rfl
    | none =>
      obtain h | h := hs <;> obtain ⟨t, rfl⟩ := List.head?_eq_some_iff.1 h <;> rfl

theorem many_nextDeclarator (d : Declarator) (more : List (Name × Declarator)) (s : List Symbol) :
    many nextDeclarator (symbols (declarators d more) ++ s) = .ok (more.map (·.1.text)) s := by
  induction more generalizing d with
  | nil =>
    have hd : symbols (declarators d []) ++ s = symbols d.lexemes ++ .mark .semicolon :: s := by
      simp [declarators]
    have hs : endsDeclarator (.mark .semicolon :: s) := by simp [endsDeclarator]
    rw [hd]
    refine many_nil ?_
    rw [nextDeclarator_declarator d hs, nextDeclarator_semicolon]
  | cons e more ih =>
    have hd : symbols (declarators d (e :: more)) ++ s = symbols d.lexemes ++
        .mark .comma :: .identifier e.1.text :: (symbols (declarators e.2 more) ++ s) := by
      simp [declarators]
    have hs : endsDeclarator
        (.mark .comma :: .identifier e.1.text :: (symbols (declarators e.2 more) ++ s)) := by
      rw [declarators, symbols_append, List.append_assoc]
      refine endsDeclarator_comma _ e.2 ?_
      cases more <;> simp
    rw [hd]
    refine many_cons ?_ (by simp; omega) (ih e.2)
    rw [nextDeclarator_declarator d hs, nextDeclarator_comma]

theorem field_declarators (start : Nat) (m : Modifiers Extent) (type : Extent) (n : Name)
    (d : Declarator) (more : List (Name × Declarator)) (s : List Symbol) :
    field start m type n.text (symbols (declarators d more) ++ s) =
      .ok (.field m type (n.text :: more.map (·.1.text)) ⟨start, s.length⟩) s := by
  unfold field
  rw [bind_of_ok (many_nextDeclarator d more s)]
  rfl

theorem method_ending (start : Nat) (m : Modifiers Extent) (type : Extent) (n : Name)
    (ps : Stretch []) (ts : Stretch [.opening .curly, .mark .semicolon, .keyword (.modifier .default)])
    (e : Ending) (s : List Symbol) :
    method start m type n.text
      (symbols (grouped .round ps ++ (ts.lexemes ++ e.lexemes)) ++ s) =
      .ok (.method m n.text type e.hasBody ⟨start, s.length⟩) s := by
  have hskip {t : List Symbol} (ht : t.head? ∈ [some (.opening .curly), some (.mark .semicolon),
      some (.keyword (.modifier .default))]) :
      skipTo (fun s => nextIs (.opening .curly) s || nextIs (.mark .semicolon) s ||
        nextIs (.keyword (.modifier .default)) s) (symbols ts.lexemes ++ t) = .ok () t := by
    refine skipTo_stretch ts (fun x s hx => ?_) ?_
    · simp only [List.mem_cons, List.not_mem_nil, or_false, not_or] at hx
      simp [nextIs, hx]
    · simpa [nextIs, or_assoc] using ht
  unfold method
  simp only [symbols_append, List.append_assoc]
  rw [bind_of_ok (group_grouped .round ps _)]
  cases e with
  | body c =>
    rw [bind_of_ok (hskip (by simp [Ending.lexemes, grouped])), get_bind, if_pos (by rfl)]
    simp only [Ending.lexemes]
    rw [bind_of_ok (group_grouped .curly c s)]
    rfl
  | semicolon =>
    have hend : statement (.mark .semicolon :: s) = .ok () s := statement_append .nil s
    rw [bind_of_ok (hskip (by simp [Ending.lexemes])), get_bind, if_neg (by simp [Ending.lexemes])]
    simp only [Ending.lexemes, symbols_cons, symbols_nil, List.cons_append, List.nil_append,
      Lexeme.symbol_mark]
    rw [bind_of_ok hend]
    rfl
  | default c =>
    have hend : statement (.keyword (.modifier .default) :: symbols c.lexemes ++
        .mark .semicolon :: s) = .ok () s := statement_append (.plain rfl (by decide) c.balanced) s
    rw [bind_of_ok (hskip (by simp [Ending.lexemes])), get_bind, if_neg (by simp [Ending.lexemes])]
    simp only [Ending.lexemes, symbols_cons, symbols_append, symbols_nil, List.cons_append,
      List.append_assoc, List.nil_append, Lexeme.symbol_keyword, Lexeme.symbol_mark]
    rw [List.cons_append] at hend
    rw [bind_of_ok hend]
    rfl

theorem constructor_full (start : Nat) (m : Modifiers Extent) (n : Name) (ps : Stretch [])
    (ts : Stretch [.opening .curly]) (body : Stretch []) (s : List Symbol) :
    constructor start m false
      (.identifier n.text :: symbols (grouped .round ps ++ (ts.lexemes ++ grouped .curly body)) ++ s) =
      .ok (.constructor m n.text false ⟨start, s.length⟩) s := by
  have hskip : skipTo (nextIs (.opening .curly))
      (symbols ts.lexemes ++ (symbols (grouped .curly body) ++ s)) =
      .ok () (symbols (grouped .curly body) ++ s) :=
    skipTo_stretch ts (fun x s hx => by simpa using hx) (by simp [grouped])
  unfold Rule.constructor
  simp only [symbols_append, List.cons_append, List.append_assoc]
  rw [bind_of_ok (identifier_name n _), if_pos (by rfl), bind_of_ok (group_grouped .round ps _),
    bind_of_ok hskip, bind_of_ok (group_grouped .curly body s)]
  rfl

theorem constructor_compact (start : Nat) (m : Modifiers Extent) (n : Name) (body : Stretch [])
    (s : List Symbol) :
    constructor start m true (.identifier n.text :: symbols (grouped .curly body) ++ s) =
      .ok (.constructor m n.text true ⟨start, s.length⟩) s := by
  unfold Rule.constructor
  rw [List.cons_append, bind_of_ok (identifier_name n _), if_neg (by simp)]
  exact (bind_of_ok (group_grouped .curly body s)).trans rfl

theorem initializer_grouped (start : Nat) (isStatic : Bool) (body : Stretch []) (s : List Symbol) :
    initializer start isStatic (symbols (grouped .curly body) ++ s) =
      .ok (.initializer isStatic ⟨start, s.length⟩) s := by
  unfold initializer
  rw [bind_of_ok (group_grouped .curly body s)]
  rfl

variable {nested : Nat → Modifiers Extent → Rule RawType} {kind : TypeKind} {owner : String}

theorem head?_generics (g? : Option Generics) (t : TypeUse) (s : List Symbol) :
    nextIs (.mark .less) (symbols (g?.elim [] Generics.lexemes ++ t.lexemes) ++ s) = g?.isSome := by
  cases g? with
  | none => simp [TypeUse.lexemes]
  | some g => simp [Generics.lexemes, Angles.lexemes]

theorem not_declaresType {g? : Option Generics} {t : TypeUse} (ht : t.NotRecord g?) (n : String)
    (s : List Symbol) : declaresType
      (symbols (g?.elim [] Generics.lexemes ++ t.lexemes) ++ .identifier n :: s) = false := by
  cases g? with
  | some g => rfl
  | none =>
    obtain ⟨name, parts⟩ := t
    cases parts with
    | nil => simpa [TypeUse.lexemes, declaresType] using fun h => ht rfl h rfl
    | cons p parts =>
      cases p with
      | arguments | dimension => rfl
      | inner as n => rfl

theorem constructorForm?_type (kind : TypeKind) (owner : String) (as : List AnnotationUse)
    (t : TypeUse) (n : String) (s : List Symbol) :
    constructorForm? kind owner (symbols (as.flatMap AnnotationUse.lexemes) ++
      (symbols t.lexemes ++ .identifier n :: s)) = none := by
  cases as with
  | cons a as => rfl
  | nil =>
    obtain ⟨name, parts⟩ := t
    cases parts with
    | nil => rfl
    | cons p parts => cases p <;> rfl

theorem modifiedMember_typed (start : Nat) (m : Modifiers Extent) {g? : Option Generics} {t : TypeUse}
    (ht : t.NotRecord g?) (n : Name) (s : List Symbol) :
    modifiedMember nested kind owner start m
      (symbols (g?.elim [] Generics.lexemes ++ t.lexemes) ++ .identifier n.text :: s) =
      (if nextIs (.opening .round) s then
        method start m ⟨(symbols t.lexemes ++ .identifier n.text :: s).length,
          (Symbol.identifier n.text :: s).length⟩ n.text
      else field start m ⟨(symbols t.lexemes ++ .identifier n.text :: s).length,
          (Symbol.identifier n.text :: s).length⟩ n.text) s := by
  have hdeclares := ne_true_of_eq_false (not_declaresType ht n.text s)
  unfold modifiedMember
  rw [get_bind, if_neg hdeclares, get_bind, head?_generics]
  cases g? with
  | none =>
    have htype := type_use [] t n.text s
    have hform := constructorForm?_type kind owner [] t n.text s
    simp only [List.flatMap_nil, symbols_nil, List.nil_append] at htype hform
    simp only [Option.elim_none, List.nil_append, Option.isSome_none]
    rw [if_neg (by simp), get_bind, hform]
    simp only
    rw [bind_of_ok htype, bind_of_ok (identifier_name n s), get_bind]
  | some g =>
    have hform := constructorForm?_type kind owner g.annotations t n.text s
    simp only [Option.elim_some, Generics.lexemes, symbols_append, List.append_assoc,
      Option.isSome_some, if_true]
    rw [bind_of_ok (angles_angles g.parameters _), get_bind, hform]
    simp only
    rw [bind_of_ok (type_use g.annotations t n.text s), bind_of_ok (identifier_name n s), get_bind]

theorem not_declaresType_of_constructorForm? {owner : String} {compact : Bool} {s : List Symbol}
    (h : constructorForm? kind owner s = some compact) : ¬ declaresType s := by
  unfold constructorForm? at h
  split at h
  next => simp [declaresType]
  next => simp [declaresType]
  next => cases h

theorem modifiedMember_constructor (start : Nat) (m : Modifiers Extent) (g? : Option Angles) {n : Name}
    {compact : Bool} {s : List Symbol}
    (hform : constructorForm? kind n.text (.identifier n.text :: s) = some compact) :
    modifiedMember nested kind n.text start m
      (symbols (g?.elim [] Angles.lexemes) ++ .identifier n.text :: s) =
      constructor start m compact (.identifier n.text :: s) := by
  unfold modifiedMember
  cases g? with
  | none =>
    simp only [Option.elim_none, symbols_nil, List.nil_append]
    rw [get_bind, if_neg (not_declaresType_of_constructorForm? hform), get_bind, if_neg (by simp),
      get_bind, hform]
  | some a =>
    have hangles := angles_angles a (.identifier n.text :: s)
    simp only [Option.elim_some, Angles.lexemes, symbols_cons, List.cons_append,
      Lexeme.symbol_mark] at hangles ⊢
    rw [get_bind, if_neg (by simp [declaresType]), get_bind, if_pos (nextIs_self _ _),
      bind_of_ok hangles, get_bind, hform]

def opensDeclaration : Symbol → Bool
  | .identifier _ | .keyword .class | .keyword .interface | .keyword .enum | .mark .less
  | .mark .atSign => true
  | _ => false

structure Opens (s : List Symbol) : Prop where
  head : ∃ x t, s = x :: t ∧ opensDeclaration x
  modifier : modifier s = .ok none s

theorem Opens.endsName {s : List Symbol} (h : Opens s) : EndsName s := by
  obtain ⟨x, t, rfl, hx⟩ := h.head
  refine .cons ?_ ?_ t
  · rintro rfl
    cases hx
  · rintro rfl
    cases hx

theorem opens_less (s : List Symbol) : Opens (.mark .less :: s) :=
  ⟨⟨_, s, rfl, rfl⟩, rfl⟩

theorem opens_identifier (n : String) {s : List Symbol} (hs : sealsNext s = false) :
    Opens (.identifier n :: s) := by
  refine ⟨⟨_, s, rfl, rfl⟩, ?_⟩
  unfold Rule.modifier
  rw [get_bind]
  simp only
  rw [if_neg (by simp [hs])]
  rfl

theorem opens_kind (kind : Kind) (s : List Symbol) (n : String) :
    Opens (symbols kind.lexemes ++ .identifier n :: s) := by
  cases kind with
  | record => exact opens_identifier "record" rfl
  | _ => exact ⟨⟨_, _, rfl, rfl⟩, rfl⟩

theorem sealsNext_kind {kind : Kind} (h : kind.isSealable) (s : List Symbol) :
    sealsNext (symbols kind.lexemes ++ s) := by
  cases kind with
  | «class» | interface | annotationType => rfl
  | record | enum => cases h

theorem opens_typed (g? : Option Generics) (t : TypeUse) (n : String) (s : List Symbol) :
    Opens (symbols (g?.elim [] Generics.lexemes ++ t.lexemes) ++ .identifier n :: s) := by
  cases g? with
  | some g => exact opens_less _
  | none =>
    obtain ⟨name, parts⟩ := t
    cases parts with
    | nil => exact opens_identifier _ rfl
    | cons p parts => cases p <;> exact opens_identifier _ rfl

theorem opens_constructor (g? : Option Angles) {owner n : String} {compact : Bool} {s : List Symbol}
    (h : constructorForm? kind owner (.identifier n :: s) = some compact) :
    Opens (symbols (g?.elim [] Angles.lexemes) ++ .identifier n :: s) := by
  have hseals : sealsNext s = false := by
    unfold sealsNext
    split
    iterate 4 simp [constructorForm?] at h
    rfl
  cases g? with
  | some a => exact opens_less _
  | none => exact opens_identifier n hseals

theorem head_of_modifiers (ms : List Modifier) {s : List Symbol} (hs : Opens s) :
    ∃ x t, symbols (ms.flatMap Modifier.lexemes) ++ s = x :: t ∧
      (opensDeclaration x ∨ ∃ w, x = .keyword (.modifier w)) := by
  cases ms with
  | nil =>
    obtain ⟨x, t, rfl, hx⟩ := hs.head
    exact ⟨x, t, rfl, .inl hx⟩
  | cons m ms =>
    cases m with
    | reserved w => exact ⟨_, _, rfl, .inr ⟨w, rfl⟩⟩
    | «sealed» | annotated => exact ⟨_, _, rfl, .inl rfl⟩

theorem not_static_block (ms : List Modifier) {s : List Symbol} (hs : Opens s) (t : List Symbol) :
    symbols (ms.flatMap Modifier.lexemes) ++ s ≠
      .keyword (.modifier .static) :: .opening .curly :: t := by
  intro h
  cases ms with
  | nil =>
    obtain ⟨x, u, rfl, hx⟩ := hs.head
    obtain rfl := (List.cons.inj h).1
    cases hx
  | cons m ms =>
    cases m with
    | reserved w =>
      obtain ⟨x, u, hu, hx⟩ := head_of_modifiers ms hs
      have hx' : x = .opening .curly := by
        have htail : symbols (ms.flatMap Modifier.lexemes) ++ s = .opening .curly :: t :=
          (List.cons.inj h).2
        exact (List.cons.inj (hu.symm.trans htail)).1
      subst hx'
      obtain hx | ⟨_, hx⟩ := hx
      · cases hx
      · cases hx
    | «sealed» | annotated => cases (List.cons.inj h).1

theorem member_of_opens (ms : List Modifier) {s : List Symbol} (hs : Opens s) :
    member nested kind owner (symbols (ms.flatMap Modifier.lexemes) ++ s) =
      (modifiers >>= modifiedMember nested kind owner
        (symbols (ms.flatMap Modifier.lexemes) ++ s).length)
        (symbols (ms.flatMap Modifier.lexemes) ++ s) := by
  obtain ⟨x, t, hx, hopens⟩ := head_of_modifiers ms hs
  have hstatic := not_static_block ms hs
  generalize symbols (ms.flatMap Modifier.lexemes) ++ s = l at hx hstatic ⊢
  unfold member
  rw [unread_bind, get_bind]
  split
  next =>
    cases hx
    simp [opensDeclaration] at hopens
  next =>
    cases hx
    simp [opensDeclaration] at hopens
  next => exact absurd rfl (hstatic _)
  next => rfl

end MemberOrder.Written
