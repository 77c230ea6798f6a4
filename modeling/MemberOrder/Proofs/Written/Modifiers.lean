import MemberOrder.Declaration.Member
import MemberOrder.Proofs.Declaration.Rules
import MemberOrder.Proofs.Written.Tree
/-! Names, annotations, modifiers and types are read as they are written. -/
namespace MemberOrder.Written

open Rule

/-- Neither a further part of a name nor arguments can begin here. -/
structure EndsName (s : List Symbol) : Prop where
  dot : s.head? ≠ some (.mark .dot)
  round : s.head? ≠ some (.opening .round)

theorem EndsName.cons {x : Symbol} (hdot : x ≠ .mark .dot) (hround : x ≠ .opening .round)
    (s : List Symbol) : EndsName (x :: s) :=
  ⟨by simpa using hdot, by simpa using hround⟩

theorem identifier_name (n : Name) (s : List Symbol) :
    identifier (.identifier n.text :: s) = .ok n.text s := rfl

theorem dottedPart_of_head {s : List Symbol} (h : s.head? ≠ some (.mark .dot)) :
    dottedPart s = .ok none s := by
  unfold dottedPart
  split
  · simp at h
  · rfl

theorem qualifiedName_dotted (d : DottedName) {s : List Symbol} (hs : s.head? ≠ some (.mark .dot)) :
    qualifiedName (symbols d.lexemes ++ s) = .ok d.text s := by
  have hmore : many dottedPart (d.more.flatMap (fun n => [.mark .dot, .identifier n.text]) ++ s) =
      .ok (d.more.map (·.text)) s :=
    many_flatMap (q := fun _ => True) (by simp) (fun _ _ => trivial) (fun _ _ _ => rfl) trivial
      (dottedPart_of_head hs) d.more
  unfold qualifiedName
  simp only [DottedName.lexemes, symbols_cons, symbols_nil, symbols_flatMap, Lexeme.symbol_name,
    Lexeme.symbol_mark, List.cons_append]
  rw [bind_of_ok (identifier_name _ _), bind_of_ok hmore]
  rfl

theorem group_grouped (b : Bracket) (c : Stretch []) (s : List Symbol) :
    group b (symbols (grouped b c) ++ s) = .ok () s := by
  simpa [grouped] using group_append c.balanced.balanced s

theorem annotationTail_use (a : AnnotationUse) {s : List Symbol} (hs : EndsName s) :
    annotationTail (symbols (a.name.lexemes ++ a.arguments) ++ s) = .ok a.name.text s := by
  unfold annotationTail AnnotationUse.arguments
  cases a.arguments? with
  | none =>
    simp only [Option.elim_none, List.append_nil]
    rw [bind_of_ok (qualifiedName_dotted a.name hs.dot), get_bind, if_neg (not_nextIs hs.round)]
    rfl
  | some c =>
    have hopen : (symbols (grouped .round c) ++ s).head? = some (.opening .round) := rfl
    have hnext : nextIs (.opening .round) (symbols (grouped .round c) ++ s) := by
      simp [nextIs, hopen]
    simp only [Option.elim_some, symbols_append, List.append_assoc]
    rw [bind_of_ok (qualifiedName_dotted a.name (by simp [hopen])), get_bind, if_pos hnext,
      bind_of_ok (group_grouped .round c s)]
    rfl

theorem annotationOnType_use (a : AnnotationUse) {s : List Symbol} (hs : EndsName s) :
    annotationOnType (symbols a.lexemes ++ s) = .ok (some a.name.text) s := by
  unfold annotationOnType
  simp only [AnnotationUse.lexemes, symbols_cons, List.cons_append, Lexeme.symbol_mark]
  rw [get_bind, if_pos (nextIs_self _ _), skip_bind, bind_of_ok (annotationTail_use a hs)]
  rfl

theorem many_annotationOnType (as : List AnnotationUse) {n : String} (s : List Symbol) :
    many annotationOnType (symbols (as.flatMap AnnotationUse.lexemes) ++ .identifier n :: s) =
      .ok (as.map (·.name.text)) (.identifier n :: s) := by
  rw [symbols_flatMap]
  refine many_flatMap (q := EndsName) (by simp [AnnotationUse.lexemes]) (fun a s => ?_)
    (fun a s hs => annotationOnType_use a hs) (.cons (by simp) (by simp) s) rfl as
  exact .cons (by simp) (by simp) _

theorem angles_angles (a : Angles) (s : List Symbol) : angles (symbols a.lexemes ++ s) = .ok () s :=
  angles_eq_ok_iff.2 ⟨symbols a.inside, [], by simp [Angles.lexemes], a.closed⟩

theorem typePart_part (p : TypePart) (s : List Symbol) :
    typePart (symbols p.lexemes ++ s) = .ok (some ()) s := by
  unfold typePart
  rw [get_bind]
  cases p with
  | arguments a =>
    have ha := angles_angles a s
    simp only [TypePart.lexemes, Angles.lexemes, symbols_cons, List.cons_append,
      Lexeme.symbol_mark] at ha ⊢
    rw [bind_of_ok ha]
    rfl
  | inner as n =>
    cases as with
    | nil => rfl
    | cons a as =>
      have has := many_annotationOnType (a :: as) (n := n.text) s
      simp only [TypePart.lexemes, List.flatMap_cons, AnnotationUse.lexemes, symbols_cons,
        symbols_append, symbols_nil, List.cons_append, List.append_assoc, List.nil_append,
        Lexeme.symbol_mark, Lexeme.symbol_name] at has ⊢
      rw [skip_bind, bind_of_ok has, bind_of_ok (identifier_name n s)]
      rfl
  | dimension => rfl

theorem type_use (as : List AnnotationUse) (t : TypeUse) (n : String) (s : List Symbol) :
    type (symbols (as.flatMap AnnotationUse.lexemes) ++ (symbols t.lexemes ++ .identifier n :: s)) =
      .ok ⟨(symbols t.lexemes ++ .identifier n :: s).length, (Symbol.identifier n :: s).length⟩
        (.identifier n :: s) := by
  have hparts : many typePart (symbols (t.parts.flatMap TypePart.lexemes) ++ .identifier n :: s) =
      .ok (t.parts.map fun _ => ()) (.identifier n :: s) := by
    rw [symbols_flatMap]
    refine many_flatMap (q := fun _ => True) (fun p => ?_) (fun _ _ => trivial)
      (fun p s _ => typePart_part p s) trivial rfl t.parts
    cases p <;> simp [TypePart.lexemes, Angles.lexemes]
  simp only [TypeUse.lexemes, symbols_cons, List.cons_append, Lexeme.symbol_name]
  unfold type
  rw [bind_of_ok (many_annotationOnType as _), unread_bind, bind_of_ok (identifier_name _ _),
    bind_of_ok hparts]
  rfl

def Modifier.found : Modifier → MemberOrder.Modifier ⊕ String
  | reserved w => .inl (.reserved w)
  | «sealed» => .inl .sealed
  | annotated a => .inr a.name.text

theorem modifier_modifier {m : Modifier} {s : List Symbol} (hs : EndsName s)
    (hseal : m = .sealed → sealsNext s) : modifier (symbols m.lexemes ++ s) = .ok (some m.found) s := by
  unfold modifier
  rw [get_bind]
  cases m with
  | reserved w => rfl
  | «sealed» =>
    simp only [Modifier.lexemes, symbols_cons, symbols_nil, List.cons_append, List.nil_append,
      Lexeme.symbol_name]
    rw [if_pos ⟨rfl, hseal rfl⟩, skip_bind]
    rfl
  | annotated a =>
    have ha := annotationTail_use a hs
    simp only [Modifier.lexemes, AnnotationUse.lexemes, DottedName.lexemes, symbols_cons,
      symbols_append, List.cons_append, Lexeme.symbol_mark, Lexeme.symbol_name] at ha ⊢
    rw [skip_bind, bind_of_ok ha]
    rfl

theorem endsName_modifiers (ms : List Modifier) {s : List Symbol} (hs : EndsName s) :
    EndsName (symbols (ms.flatMap Modifier.lexemes) ++ s) := by
  cases ms with
  | nil => exact hs
  | cons m ms => cases m <;> exact .cons (by simp) (by simp) _

theorem sealsNext_modifier {m : Modifier} (hm : m ≠ .sealed) (ms : List Modifier) (s : List Symbol) :
    sealsNext (symbols ((m :: ms).flatMap Modifier.lexemes) ++ s) := by
  cases m with
  | reserved | annotated => rfl
  | «sealed» => exact absurd rfl hm

theorem Modifier.sealed_cons {p : Prop} {m : Modifier} {ms : List Modifier}
    (h : Modifier.Sealed p (m :: ms)) :
    (m = .sealed → ms = [] ∧ p ∨ ∃ n ns, ms = n :: ns ∧ n ≠ .sealed) ∧ Modifier.Sealed p ms := by
  cases m with
  | reserved | annotated => exact ⟨by simp, by simpa [Modifier.Sealed] using h⟩
  | «sealed» =>
    cases ms with
    | nil => exact ⟨fun _ => .inl ⟨rfl, h⟩, trivial⟩
    | cons n ns =>
      cases n with
      | «sealed» => simp [Modifier.Sealed] at h
      | reserved | annotated =>
        exact ⟨fun _ => .inr ⟨_, ns, rfl, by simp⟩, by simpa [Modifier.Sealed] using h⟩

theorem many_modifier {p : Prop} {ms : List Modifier} {s : List Symbol} (hs : EndsName s)
    (hend : modifier s = .ok none s) (hseal : Modifier.Sealed p ms) (hp : p → sealsNext s) :
    many modifier (symbols (ms.flatMap Modifier.lexemes) ++ s) = .ok (ms.map Modifier.found) s := by
  induction ms with
  | nil => exact many_nil hend
  | cons m ms ih =>
    obtain ⟨hm, hms⟩ := Modifier.sealed_cons hseal
    have hnext : m = .sealed → sealsNext (symbols (ms.flatMap Modifier.lexemes) ++ s) := by
      intro h
      obtain ⟨rfl, hlast⟩ | ⟨n, ns, rfl, hn⟩ := hm h
      · exact hp hlast
      · exact sealsNext_modifier hn ns s
    have hl : 0 < m.lexemes.length := by
      cases m <;> simp [Modifier.lexemes, AnnotationUse.lexemes]
    rw [List.flatMap_cons, symbols_append, List.append_assoc]
    exact many_cons (modifier_modifier (endsName_modifiers ms hs) hnext) (by simp; omega) (ih hms)

theorem modifiers_modifiers {p : Prop} {ms : List Modifier} {s : List Symbol} (hs : EndsName s)
    (hend : modifier s = .ok none s) (hseal : Modifier.Sealed p ms) (hp : p → sealsNext s) :
    ∃ m, modifiers (symbols (ms.flatMap Modifier.lexemes) ++ s) = .ok m s ∧
      m.map (fun _ => ()) = Modifier.tree ms := by
  unfold modifiers
  rw [unread_bind, bind_of_ok (many_modifier hs hend hseal hp)]
  refine ⟨_, rfl, ?_⟩
  have hkeyword : Sum.getLeft? ∘ Modifier.found = Modifier.keyword? := by
    funext m
    cases m <;> rfl
  have hname : Sum.getRight? ∘ Modifier.found = Modifier.annotationName? := by
    funext m
    cases m <;> rfl
  rw [Modifiers.map, Modifier.tree, List.filterMap_map, List.filterMap_map, hkeyword, hname]
  cases ms <;> rfl

end MemberOrder.Written
