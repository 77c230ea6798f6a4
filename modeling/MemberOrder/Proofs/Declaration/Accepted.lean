import MemberOrder.Proofs.Declaration.Closers
import MemberOrder.Proofs.Written.Lexeme
/-! The brackets of a text that is accepted. No rule passes over more than what is balanced but for
closers loose in angle brackets (`Rule.Keeps`), and a file is read to its end. Main statement:
`balanced_iff_of_parse`. -/
namespace MemberOrder

/-- What lies from `s` up to `t` is balanced but for closers loose in angle brackets. -/
def Passed (s t : List Symbol) : Prop :=
  ∃ c l, s = c ++ t ∧ BalancedBut c l

namespace Passed

variable {s t u : List Symbol}

theorem refl (s : List Symbol) : Passed s s :=
  ⟨[], [], rfl, .nil⟩

theorem trans (h : Passed s t) (h' : Passed t u) : Passed s u := by
  obtain ⟨c, l, rfl, hc⟩ := h
  obtain ⟨d, l', rfl, hd⟩ := h'
  exact ⟨c ++ d, l ++ l', by simp, hc.append hd⟩

theorem plain {x : Symbol} (hx : x.isPlain) (h : Passed s t) : Passed (x :: s) t := by
  obtain ⟨c, l, rfl, hc⟩ := h
  exact ⟨x :: c, l, rfl, .plain hx hc⟩

theorem group {b : Bracket} (h : Passed s (.closing b :: t)) : Passed (.opening b :: s) t := by
  obtain ⟨c, l, rfl, hc⟩ := h
  exact ⟨.opening b :: (c ++ [.closing b]), l ++ [], by simp, .group hc .nil⟩

theorem suffix (h : Passed s t) : t <:+ s := by
  obtain ⟨c, l, rfl, _⟩ := h
  exact List.suffix_append c t

theorem length_le (h : Passed s t) : t.length ≤ s.length :=
  h.suffix.length_le

end Passed

namespace Rule

variable {α β : Type}

structure Keeps (r : Rule α) : Prop where
  passed {s a t} : r s = .ok a t → Passed s t

theorem Keeps.pure (a : α) : Keeps (Pure.pure a : Rule α) := by
  constructor
  intro s b t h
  cases h
  exact .refl s

theorem Keeps.bind {x : Rule α} {f : α → Rule β} (hx : Keeps x) (hf : ∀ a, Keeps (f a)) :
    Keeps (x >>= f) := by
  constructor
  intro s b u h
  obtain ⟨a, t, ha, hb⟩ := bind_eq_ok_iff.1 h
  exact (hx.passed ha).trans ((hf a).passed hb)

theorem Keeps.ite {p : Prop} [Decidable p] {x y : Rule α} (hx : Keeps x) (hy : Keeps y) :
    Keeps (if p then x else y) := by
  split
  · exact hx
  · exact hy

theorem Keeps.get : Keeps (get : Rule (List Symbol)) := by
  constructor
  intro s a t h
  cases h
  exact .refl s

theorem Keeps.unread : Keeps unread := by
  constructor
  intro s a t h
  cases h
  exact .refl s

theorem Keeps.refuse (e : Expected) : Keeps (refuse e : Rule α) := by
  constructor
  intro s a t h
  cases h

theorem Keeps.many {item : Rule (Option α)} (h : Keeps item) : Keeps (many item) := by
  constructor
  intro s as t hs
  induction hn : s.length using Nat.strongRecOn generalizing s as with
  | ind n ih =>
    subst hn
    rw [Rule.many] at hs
    split at hs
    next => cases hs
    next s' hi =>
      cases hs
      exact h.passed hi
    next a s' hi =>
      split at hs
      next hlt =>
        split at hs
        next => cases hs
        next as' t' hm =>
          cases hs
          exact (h.passed hi).trans (ih _ hlt hm rfl)
      next =>
        cases hs
        exact h.passed hi

theorem Keeps.group (b : Bracket) : Keeps (group b) := by
  constructor
  intro s a t h
  obtain ⟨c, rfl, hc⟩ := group_eq_ok_iff.1 h
  exact .group ⟨c, [], rfl, hc.balancedBut⟩

theorem Keeps.angles : Keeps angles := by
  constructor
  intro s a t h
  obtain ⟨c, l, rfl, hc⟩ := angles_eq_ok_iff.1 h
  exact ⟨.mark .less :: (c ++ []), l ++ [], by simp, .angles hc .nil⟩

theorem Keeps.skipTo (stop : List Symbol → Bool) : Keeps (skipTo stop) := by
  constructor
  intro s a t h
  obtain ⟨c, rfl, hc, _⟩ := balanced_of_skipTo h
  exact ⟨c, [], rfl, hc.balancedBut⟩

theorem Keeps.expect {x : Symbol} (hx : x.isPlain) : Keeps (expect x) := by
  constructor
  intro s a t h
  obtain rfl := expect_eq_ok_iff.1 h
  exact .plain hx (.refl t)

theorem Keeps.reads {x : Symbol} (hx : x.isPlain) {r r' : Rule α} (h : Keeps r) (h' : Keeps r') :
    Keeps (do if nextIs x (← Rule.get) then do skip; r else r') := by
  constructor
  intro s a t hs
  rw [get_bind] at hs
  split at hs
  next hn =>
    obtain ⟨s, rfl⟩ := nextIs_iff.1 hn
    rw [skip_bind] at hs
    exact .plain hx (h.passed hs)
  next => exact h'.passed hs

theorem Keeps.identifier : Keeps identifier := by
  constructor
  intro s a t h
  unfold Rule.identifier at h
  split at h
  next =>
    cases h
    exact .plain rfl (.refl _)
  next => cases h

theorem Keeps.statement : Keeps statement := by
  constructor
  intro s a t h
  obtain ⟨c, rfl, hc⟩ := balancedOver_of_statement h
  exact Passed.trans ⟨c, [], rfl, hc.balanced.balancedBut⟩ (.plain rfl (.refl t))

theorem Keeps.dottedPart : Keeps dottedPart := by
  constructor
  intro s a t h
  unfold Rule.dottedPart at h
  split at h <;> cases h
  · exact .plain rfl (.plain rfl (.refl _))
  · exact .refl _

theorem Keeps.qualifiedName : Keeps qualifiedName :=
  .bind .identifier fun _ => .bind (.many .dottedPart) fun _ => .pure _

theorem Keeps.annotationTail : Keeps annotationTail :=
  .bind .qualifiedName fun _ => .bind .get fun _ =>
    .ite (.bind (.group _) fun _ => .pure _) (.pure _)

theorem Keeps.modifier : Keeps modifier := by
  constructor
  intro s a t h
  rw [Rule.modifier, get_bind] at h
  split at h
  next =>
    cases h
    exact .plain rfl (.refl _)
  next =>
    split at h <;> cases h
    · exact .plain rfl (.refl _)
    · exact .refl _
  next =>
    cases h
    exact .refl _
  next =>
    rw [skip_bind] at h
    exact .plain rfl ((Keeps.bind .annotationTail fun _ => .pure _).passed h)
  next =>
    cases h
    exact .refl _

theorem Keeps.modifiers : Keeps modifiers :=
  .bind .unread fun _ => .bind (.many .modifier) fun _ => .pure _

theorem Keeps.annotationOnType : Keeps annotationOnType :=
  .reads rfl (.bind .annotationTail fun _ => .pure _) (.pure _)

theorem Keeps.typePart : Keeps typePart := by
  constructor
  intro s a t h
  rw [Rule.typePart, get_bind] at h
  split at h
  next => exact (Keeps.bind .angles fun _ => .pure _).passed h
  next =>
    cases h
    exact .plain rfl (.plain rfl (.refl _))
  next =>
    cases h
    exact .group (.refl _)
  next =>
    rw [skip_bind] at h
    refine .plain rfl (Keeps.passed ?_ h)
    exact .bind (.many .annotationOnType) fun _ => .bind .identifier fun _ => .pure _
  next =>
    cases h
    exact .refl _

theorem Keeps.type : Keeps type :=
  .bind (.many .annotationOnType) fun _ => .bind .unread fun _ => .bind .identifier fun _ =>
    .bind (.many .typePart) fun _ => .bind .unread fun _ => .pure _

theorem Keeps.since (start : Nat) : Keeps (since start) :=
  .bind .unread fun _ => .pure _

theorem Keeps.initializer (start : Nat) (isStatic : Bool) : Keeps (initializer start isStatic) :=
  .bind (.group _) fun _ => .bind (.since _) fun _ => .pure _

theorem Keeps.constructor (start : Nat) (m : Modifiers Extent) (compact : Bool) :
    Keeps (constructor start m compact) := by
  refine .bind .identifier fun _ => .ite ?_ ?_
  · exact .bind (.group _) fun _ => .bind (.skipTo _) fun _ => .bind (.group _) fun _ =>
      .bind (.since _) fun _ => .pure _
  · exact .bind (.group _) fun _ => .bind (.since _) fun _ => .pure _

theorem Keeps.method (start : Nat) (m : Modifiers Extent) (result : Extent) (name : String) :
    Keeps (method start m result name) := by
  refine .bind (.group _) fun _ => .bind (.skipTo _) fun _ => .bind .get fun _ => .ite ?_ ?_
  · exact .bind (.group _) fun _ => .bind (.since _) fun _ => .pure _
  · exact .bind .statement fun _ => .bind (.since _) fun _ => .pure _

theorem Keeps.dimension : Keeps dimension :=
  .bind .get fun _ => .ite (.bind (.group _) fun _ => .pure _) (.pure _)

theorem Keeps.nextDeclarator : Keeps nextDeclarator := by
  refine .bind (.many .dimension) fun _ => .reads rfl (.bind (.skipTo _) fun _ => ?rest) ?rest
  constructor
  intro s a t h
  simp only [get_bind] at h
  split at h
  next =>
    cases h
    exact .plain rfl (.refl _)
  next =>
    rw [skip_bind] at h
    exact .plain rfl ((Keeps.bind .identifier fun _ => .pure _).passed h)
  next => cases h

theorem Keeps.field (start : Nat) (m : Modifiers Extent) (type : Extent) (name : String) :
    Keeps (field start m type name) :=
  .bind (.many .nextDeclarator) fun _ => .bind (.since _) fun _ => .pure _

variable {nested : Nat → Modifiers Extent → Rule RawType}

theorem Keeps.modifiedMember (hnested : ∀ start m, Keeps (nested start m)) (kind : TypeKind)
    (owner : String) (start : Nat) (m : Modifiers Extent) :
    Keeps (modifiedMember nested kind owner start m) := by
  refine .bind .get fun _ => .ite (.bind (hnested _ _) fun _ => .pure _) <|
    .bind .get fun _ => .ite (.bind .angles fun _ => ?rest) ?rest
  refine .bind .get fun _ => ?_
  split
  · exact .constructor ..
  · exact .bind .type fun _ => .bind .identifier fun _ => .bind .get fun _ =>
      .ite (.method ..) (.field ..)

theorem Keeps.member (hnested : ∀ start m, Keeps (nested start m)) (kind : TypeKind)
    (owner : String) : Keeps (member nested kind owner) := by
  constructor
  intro s a t h
  rw [Rule.member, unread_bind, get_bind] at h
  split at h
  next =>
    rw [skip_bind] at h
    exact .plain rfl ((Keeps.bind (.since _) fun _ => .pure _).passed h)
  next => exact (Keeps.initializer ..).passed h
  next =>
    rw [skip_bind] at h
    exact .plain rfl ((Keeps.initializer ..).passed h)
  next => exact (Keeps.bind .modifiers fun _ => .modifiedMember hnested ..).passed h

theorem Keeps.member? (hnested : ∀ start m, Keeps (nested start m)) (kind : TypeKind)
    (owner : String) : Keeps (member? nested kind owner) := by
  refine .bind .get fun _ => ?_
  split
  · exact .pure _
  · exact .refuse _
  · exact .bind (.member hnested ..) fun _ => .pure _

theorem Keeps.typeKeyword : Keeps typeKeyword := by
  constructor
  intro s a t h
  unfold Rule.typeKeyword at h
  split at h
  iterate 3
    next =>
      cases h
      exact .plain rfl (.refl _)
  next => exact .plain rfl ((Keeps.bind (.expect rfl) fun _ => .pure _).passed h)
  next =>
    split at h <;> cases h
    exact .plain rfl (.refl _)
  next => cases h

theorem Keeps.enumConstants : Keeps enumConstants :=
  .bind (.skipTo _) fun _ => .reads rfl (.pure _) (.pure _)

theorem typeDeclOver_eq_ok {start : Nat} {m : Modifiers Extent} {s t : List Symbol} {d : RawType}
    (h : typeDeclOver nested start m s = .ok d t) : ∃ kind name xs s₁ s₂ s₃ s₄,
      typeKeyword s = .ok kind s₁ ∧ identifier s₁ = .ok name s₂ ∧
      skipTo (nextIs (.opening .curly)) s₂ = .ok () (.opening .curly :: s₃) ∧
      (kind = .enum ∧ enumConstants s₃ = .ok () s₄ ∨ ¬ kind = .enum ∧ s₄ = s₃) ∧
      many (member? nested kind name) s₄ = .ok xs (.closing .curly :: t) ∧
      d = .mk kind name m xs ⟨(Symbol.opening .curly :: s₃).length, t.length⟩ ⟨start, t.length⟩ := by
  obtain ⟨kind, s₁, hkind, h⟩ := bind_eq_ok_iff.1 h
  obtain ⟨name, s₂, hname, h⟩ := bind_eq_ok_iff.1 h
  obtain ⟨_, s, hhead, h⟩ := bind_eq_ok_iff.1 h
  rw [unread_bind] at h
  obtain ⟨_, s₃, hopen, h⟩ := bind_eq_ok_iff.1 h
  obtain rfl := expect_eq_ok_iff.1 hopen
  obtain ⟨s₄, hconstants, h⟩ := of_ite_bind h
  obtain ⟨xs, s, hmembers, h⟩ := bind_eq_ok_iff.1 h
  obtain ⟨_, s₅, hclose, h⟩ := bind_eq_ok_iff.1 h
  obtain rfl := expect_eq_ok_iff.1 hclose
  cases h
  exact ⟨kind, name, xs, s₁, s₂, s₃, s₄, hkind, hname, hhead, hconstants, hmembers, rfl⟩

theorem typeDeclOver_passed (hnested : ∀ start m, Keeps (nested start m)) {start : Nat}
    {m : Modifiers Extent} {s t : List Symbol} {d : RawType}
    (h : typeDeclOver nested start m s = .ok d t) : Passed s t ∧ t.length < s.length := by
  obtain ⟨kind, name, xs, s₁, s₂, s₃, s₄, hkind, hname, hhead, hconstants, hmembers, rfl⟩ :=
    typeDeclOver_eq_ok h
  have hfront : Passed s (.opening .curly :: s₃) :=
    (Keeps.typeKeyword.passed hkind).trans <|
      (Keeps.identifier.passed hname).trans ((Keeps.skipTo _).passed hhead)
  have hconstants : Passed s₃ s₄ := by
    obtain ⟨_, henum⟩ | ⟨_, rfl⟩ := hconstants
    · exact Keeps.enumConstants.passed henum
    · exact .refl _
  have hbody : Passed s₃ (.closing .curly :: t) :=
    hconstants.trans ((Keeps.many (.member? hnested ..)).passed hmembers)
  have hfl := hfront.length_le
  have hbl := hbody.length_le
  simp only [List.length_cons] at hfl hbl
  exact ⟨hfront.trans (.group hbody), by omega⟩

theorem typeDecl_passed {depth start : Nat} {m : Modifiers Extent} {s t : List Symbol} {d : RawType}
    (h : typeDecl depth start m s = .ok d t) : Passed s t ∧ t.length < s.length := by
  induction depth generalizing start m s t d with
  | zero => cases h
  | succ depth ih => exact typeDeclOver_passed (fun _ _ => ⟨fun h => (ih h).1⟩) h

theorem packageOrType_passed {start : Nat} {m : Modifiers Extent} {s t : List Symbol}
    {i : FileItem} (h : packageOrType start m s = .ok i t) : Passed s t ∧ t.length < s.length := by
  rw [packageOrType, get_bind] at h
  split at h
  next s =>
    rw [skip_bind] at h
    have hrest := (Keeps.bind .qualifiedName fun _ =>
      .bind (.expect rfl) fun _ => .pure _).passed h
    have hl := hrest.length_le
    simp only [List.length_cons]
    exact ⟨.plain rfl hrest, by omega⟩
  next =>
    obtain ⟨d, s', hd, h⟩ := bind_eq_ok_iff.1 h
    cases h
    exact typeDecl_passed hd

theorem fileItem?_eq_ok {s t : List Symbol} {o : Option FileItem} (h : fileItem? s = .ok o t) :
    o = none ∧ s = [] ∧ t = [] ∨ ∃ i, o = some i ∧ Passed s t ∧ t.length < s.length := by
  rw [fileItem?, get_bind] at h
  split at h
  next =>
    cases h
    exact .inl ⟨rfl, rfl, rfl⟩
  next =>
    cases h
    exact .inr ⟨_, rfl, .plain rfl (.refl _), by simp⟩
  next =>
    obtain ⟨_, s', hs, h⟩ := bind_eq_ok_iff.1 h
    cases h
    obtain ⟨c, hc, _⟩ := balancedOver_of_statement hs
    have hl := congrArg List.length hc
    simp only [List.length_append, List.length_cons] at hl
    exact .inr ⟨_, rfl, Keeps.statement.passed hs, by simp only [List.length_cons]; omega⟩
  next =>
    obtain ⟨m, s₁, hm, h⟩ := bind_eq_ok_iff.1 h
    obtain ⟨a, s₂, ha, h⟩ := bind_eq_ok_iff.1 h
    cases h
    obtain ⟨hp, hl⟩ := packageOrType_passed ha
    have hmp := Keeps.modifiers.passed hm
    have hml := hmp.length_le
    exact .inr ⟨_, rfl, hmp.trans hp, by omega⟩

theorem fileItem?_passed {s t : List Symbol} {i : FileItem} (h : fileItem? s = .ok (some i) t) :
    Passed s t ∧ t.length < s.length := by
  obtain ⟨hnone, _⟩ | ⟨_, _, hp⟩ := fileItem?_eq_ok h
  · cases hnone
  · exact hp

theorem many_fileItem?_induction {motive : List Symbol → List FileItem → Prop} (hend : motive [] [])
    (hstep : ∀ {s i t is}, fileItem? s = .ok (some i) t → motive t is → motive s (i :: is))
    {s t : List Symbol} {is : List FileItem} (h : many fileItem? s = .ok is t) :
    t = [] ∧ motive s is := by
  have hitem {s t : List Symbol} {o : Option FileItem} (hi : fileItem? s = .ok o t) :
      o = none ∧ t = s ∨ ∃ i, o = some i ∧ fileItem? s = .ok (some i) t := by
    obtain ⟨rfl, rfl, rfl⟩ | ⟨i, rfl, _⟩ := fileItem?_eq_ok hi
    · exact .inl ⟨rfl, rfl⟩
    · exact .inr ⟨i, rfl, hi⟩
  refine many_induction (motive := fun s is t => t = [] ∧ motive s is) hitem
    (fun hi => (fileItem?_passed hi).2) ?ending (fun hi ih => ⟨ih.1, hstep hi ih.2⟩) h
  intro s hi
  obtain ⟨_, rfl, _⟩ | ⟨_, hsome, _⟩ := fileItem?_eq_ok hi
  · exact ⟨rfl, hend⟩
  · cases hsome

theorem many_fileItem?_passed {s t : List Symbol} {is : List FileItem}
    (h : many fileItem? s = .ok is t) : Passed s t ∧ t = [] := by
  obtain ⟨rfl, hp⟩ := many_fileItem?_induction (motive := fun s _ => Passed s []) (.refl [])
    (fun hi ih => (fileItem?_passed hi).1.trans ih) h
  exact ⟨hp, rfl⟩

end Rule

/-- A text is accepted only if each bracket in it is closed by one of its sort, and every closer that
closes none stands loose in angle brackets; it is balanced exactly if there is no such closer. -/
theorem balanced_iff_of_parse {source : List Char} {u : SourceUnit} (h : parse source = .ok u) :
    ∃ ts loose, tokenize source = .ok ts ∧ BalancedBut ts.symbols loose ∧
      (Balanced ts.symbols ↔ loose = []) := by
  unfold parse Reading.start at h
  cases hts : tokenize source with
  | error e => rw [hts] at h; cases h
  | ok ts =>
    rw [hts] at h
    have hf : ((Reading.mk source ts ts.symbols).next).1 = .ok u := h
    unfold Reading.next at hf
    split at hf
    next v t hfile =>
      obtain ⟨items, s', hitems, hu⟩ := Rule.bind_eq_ok_iff.1 hfile
      obtain ⟨⟨c, loose, hc, hb⟩, rfl⟩ := Rule.many_fileItem?_passed hitems
      have hts : ts.symbols = c := by simpa using hc
      rw [← hts] at hb
      exact ⟨ts, loose, rfl, hb, hb.balanced_iff⟩
    next => cases hf

open Written

/-- A class with one field, the type of which has these arguments. -/
def boxOf (arguments : List Lexeme) : List Lexeme :=
  [.keyword .class, Name.box.lexeme, .opening .curly, Name.item.lexeme, .mark .less] ++ arguments ++
    [.mark .greater, Name.item.lexeme, .mark .semicolon, .closing .curly]

theorem balanced_iff_of_parse_boxOf : ∃ u ts loose,
    parse (write (boxOf [Name.box.lexeme, .opening .square, .closing .square])) = .ok u ∧
      tokenize (write (boxOf [Name.box.lexeme, .opening .square, .closing .square])) = .ok ts ∧
      BalancedBut ts.symbols loose ∧ (Balanced ts.symbols ↔ loose = []) := by
  obtain ⟨u, hfile⟩ : ∃ u, Rule.file
      (symbols (boxOf [Name.box.lexeme, .opening .square, .closing .square])) = .ok u [] :=
    ⟨_, by cbv⟩
  have hp : parse (write (boxOf [Name.box.lexeme, .opening .square, .closing .square])) =
      .ok ((reading (boxOf [Name.box.lexeme, .opening .square, .closing .square])).located u) := by
    rw [parse_write_eq, Reading.next, reading, hfile]
  obtain ⟨ts, loose, h⟩ := balanced_iff_of_parse hp
  exact ⟨_, ts, loose, hp, h⟩

/-- A closer in type arguments is read over, whatever it closes. -/
theorem exists_parse_not_balanced :
    ¬ ∀ source u ts, parse source = .ok u → tokenize source = .ok ts → Balanced ts.symbols := by
  intro h
  obtain ⟨u, hfile⟩ : ∃ u, Rule.file (symbols (boxOf [.closing .round])) = .ok u [] := ⟨_, by cbv⟩
  have hp : parse (write (boxOf [.closing .round])) =
      .ok ((reading (boxOf [.closing .round])).located u) := by
    rw [parse_write_eq, Reading.next, reading, hfile]
  have hb : Balanced (symbols (boxOf [.closing .round])) := by
    rw [← symbol_tokens .start]
    exact h _ _ _ hp (tokenize_write _)
  have hexcess : excess (symbols (boxOf [.closing .round])) = -1 := rfl
  rw [hb.excess_eq] at hexcess
  cases hexcess

end MemberOrder
