import MemberOrder.Proofs.Declaration.Balanced
import MemberOrder.Proofs.Declaration.Drops
/-! Rules do not look far. What a rule reads in front of a semicolon or a curly bracket it reads in front
of it whatever comes behind: no lookahead passes these symbols (`Sees`), and so no rule does that stops
before one (`Rule.Near`). -/
namespace MemberOrder

/-- No lookahead passes a semicolon or a curly bracket. -/
inductive Symbol.Stops : Symbol → Prop
  | semicolon : Stops (.mark .semicolon)
  | opening : Stops (.opening .curly)
  | closing : Stops (.closing .curly)

/-- Two texts that agree up to and with a symbol that stops, and how the places up to there in the one
are told in the other. -/
structure Seam (z : Symbol) (u u' : List Symbol) (up : Nat → Nat) : Prop where
  stops : z.Stops
  up_add (n : Nat) : up (n + u.length) = n + u'.length

theorem Seam.up_length {z : Symbol} {u u' : List Symbol} {up : Nat → Nat} (h : Seam z u u' up)
    (p : List Symbol) : up (p ++ z :: u).length = (p ++ z :: u').length := by
  have hup := h.up_add (p.length + 1)
  have hlength (v : List Symbol) : (p ++ z :: v).length = p.length + 1 + v.length := by
    simp only [List.length_append, List.length_cons]
    omega
  rw [hlength, hlength, hup]

theorem exists_seam {z : Symbol} (hz : z.Stops) (u u' : List Symbol) : ∃ up, Seam z u u' up :=
  ⟨fun n => n - u.length + u'.length, hz, fun n => by rw [Nat.add_sub_cancel]⟩

def dotted? : List Symbol → Option String
  | .mark .dot :: .identifier n :: _ => some n
  | _ => none

def modifierAhead? : List Symbol → Option (Option Modifier)
  | .keyword (.modifier w) :: _ => some (some (.reserved w))
  | .identifier n :: s => if n = "sealed" ∧ Rule.sealsNext s then some (some .sealed) else none
  | .mark .atSign :: .keyword .interface :: _ => none
  | .mark .atSign :: _ => some none
  | _ => none

inductive TypePart
  | arguments | plain | annotated

def typePartAhead? : List Symbol → Option TypePart
  | .mark .less :: _ => some .arguments
  | .mark .dot :: .identifier _ :: _ | .opening .square :: .closing .square :: _ => some .plain
  | .mark .dot :: .mark .atSign :: _ => some .annotated
  | _ => none

/-- What is seen at a place depends on nothing behind the next symbol that stops. -/
structure Sees {β : Type} (c : List Symbol → β) : Prop where
  sees {z : Symbol} (hz : z.Stops) (u u' p : List Symbol) : c (p ++ z :: u) = c (p ++ z :: u')

namespace Sees

theorem nextIs (x : Symbol) : Sees (nextIs x) := by
  constructor
  intro z hz u u' p
  cases p <;> rfl

theorem or {c d : List Symbol → Bool} (hc : Sees c) (hd : Sees d) : Sees fun s => c s || d s := by
  constructor
  intro z hz u u' p
  rw [hc.sees hz u u' p, hd.sees hz u u' p]

theorem sealsNext : Sees Rule.sealsNext := by
  constructor
  intro z hz u u' p
  unfold Rule.sealsNext
  match p with
  | [] => cases hz <;> rfl
  | x :: p => grind

theorem declaresType : Sees Rule.declaresType := by
  constructor
  intro z hz u u' p
  unfold Rule.declaresType
  match p with
  | [] => cases hz <;> rfl
  | [x] => cases hz <;> grind
  | x :: y :: p => grind

theorem constructorForm? (kind : TypeKind) (owner : String) :
    Sees (Rule.constructorForm? kind owner) := by
  constructor
  intro z hz u u' p
  unfold Rule.constructorForm?
  match p with
  | [] => cases hz <;> rfl
  | [x] => cases hz <;> grind
  | x :: y :: p => grind

theorem declaratorFollows : Sees Rule.declaratorFollows := by
  constructor
  intro z hz u u' p
  unfold Rule.declaratorFollows
  match p with
  | [] => cases hz <;> rfl
  | [x] => cases hz <;> grind
  | [x, y] => cases hz <;> grind
  | x :: y :: w :: p => grind

theorem dotted? : Sees dotted? := by
  constructor
  intro z hz u u' p
  unfold MemberOrder.dotted?
  match p with
  | [] => cases hz <;> rfl
  | [x] => cases hz <;> grind
  | x :: y :: p => grind

theorem modifierAhead? : Sees modifierAhead? := by
  constructor
  intro z hz u u' p
  unfold MemberOrder.modifierAhead?
  match p with
  | [] => cases hz <;> rfl
  | [x] =>
    have hs := sealsNext.sees hz u u' []
    cases hz <;> grind
  | x :: y :: p =>
    have hs := sealsNext.sees hz u u' (y :: p)
    simp only [List.cons_append] at hs ⊢
    cases x with
    | mark m => cases m <;> grind
    | keyword | identifier | number | string | character | opening | closing | operator => grind

theorem typePartAhead? : Sees typePartAhead? := by
  constructor
  intro z hz u u' p
  unfold MemberOrder.typePartAhead?
  match p with
  | [] => cases hz <;> rfl
  | [x] => cases hz <;> grind
  | x :: y :: p => grind

end Sees

def Extent.map (up : Nat → Nat) (e : Extent) : Extent :=
  ⟨up e.unread, up e.left⟩

def TypeKind.symbols : TypeKind → List Symbol
  | .class => [.keyword .class]
  | .interface => [.keyword .interface]
  | .enum => [.keyword .enum]
  | .record => [.identifier "record"]
  | .annotationType => [.mark .atSign, .keyword .interface]

namespace Rule

variable {α α' β β' κ : Type}

/-- What `r` reads of a text before a symbol that stops, `r'` reads of any other text that agrees up
to there. Answers are the same, but for how they tell places. -/
structure Near (f : (Nat → Nat) → α → α') (r : Rule α) (r' : (Nat → Nat) → Rule α') : Prop
    extends Drops r where
  near {z u u' up p q a} (h : Seam z u u' up) (hr : r (p ++ z :: u) = .ok a (q ++ z :: u)) :
    r' up (p ++ z :: u') = .ok (f up a) (q ++ z :: u')

abbrev Blind (r : Rule α) : Prop :=
  Near (fun _ a => a) r fun _ => r

theorem eq_append_of_suffix {s q t : List Symbol} (h : q ++ s <:+ t) : ∃ p, t = p ++ s := by
  obtain ⟨c, rfl⟩ := h
  exact ⟨c ++ q, by simp⟩

theorem Drops.suffix_of_ok {r : Rule α} (h : Drops r) {s t : List Symbol} {a : α}
    (hr : r s = .ok a t) : t <:+ s := by
  have hs := h.suffix s
  rwa [hr] at hs

theorem Drops.suffix_of_error {r : Rule α} (h : Drops r) {s t : List Symbol} {e : Refusal}
    (hr : r s = .error e t) : t <:+ s := by
  have hs := h.suffix s
  rwa [hr] at hs

theorem Near.pure (f : (Nat → Nat) → α → α') (a : α) :
    Near f (Pure.pure a) fun up => Pure.pure (f up a) where
  toDrops := .pure a
  near {z u u' up p q b} _ h := by
    obtain ⟨rfl, hs⟩ := EStateM.Result.ok.inj h
    obtain rfl := List.append_cancel_right hs
    rfl

theorem Near.bind {f : (Nat → Nat) → α → α'} {g : (Nat → Nat) → β → β'} {x : Rule α}
    {x' : (Nat → Nat) → Rule α'} {k : α → Rule β} {k' : (Nat → Nat) → α' → Rule β'}
    (hx : Near f x x') (hk : ∀ a, Near g (k a) fun up => k' up (f up a)) :
    Near g (x >>= k) fun up => x' up >>= k' up where
  toDrops := .bind hx.toDrops fun a => (hk a).toDrops
  near {z u u' up p q b} h hr := by
    obtain ⟨a, t, ha, hb⟩ := bind_eq_ok_iff.1 hr
    obtain ⟨p', rfl⟩ := eq_append_of_suffix ((hk a).suffix_of_ok hb)
    rw [bind_of_ok (hx.near h ha)]
    exact (hk a).near h hb

theorem Near.test {f : (Nat → Nat) → α → α'} {c : List Symbol → Bool} (hc : Sees c) {x y : Rule α}
    {x' y' : (Nat → Nat) → Rule α'} (hx : Near f x x') (hy : Near f y y') :
    Near f (Rule.get >>= fun s => if c s then x else y) fun up =>
      Rule.get >>= fun s => if c s then x' up else y' up where
  toDrops := .bind .get fun _ => .ite hx.toDrops hy.toDrops
  near {z u u' up p q a} h hr := by
    rw [get_bind] at hr ⊢
    rw [hc.sees h.stops u u' p] at hr
    split at hr
    next ht =>
      rw [if_pos ht]
      exact hx.near h hr
    next ht =>
      rw [if_neg ht]
      exact hy.near h hr

theorem Near.unread : Near (fun up n => up n) unread fun _ => unread where
  toDrops := .unread
  near {z u u' up p q n} h hr := by
    obtain ⟨rfl, hs⟩ := EStateM.Result.ok.inj hr
    obtain rfl := List.append_cancel_right hs
    rw [h.up_length]
    rfl

theorem Near.skip : Blind skip where
  toDrops := .skip
  near {z u u' up p q a} _ hr := by
    obtain ⟨_, hs⟩ := EStateM.Result.ok.inj hr
    cases p with
    | nil =>
      have hl := congrArg List.length hs
      simp at hl
      omega
    | cons x p =>
      obtain rfl := List.append_cancel_right hs
      rfl

theorem Near.refuseRead (f : (Nat → Nat) → α → α') (e : Expected) :
    Near f (refuseRead e) fun _ => refuseRead e where
  toDrops := .refuseRead e
  near _ hr := by cases hr

theorem identifier_eq_ok {s t : List Symbol} {n : String} :
    identifier s = .ok n t ↔ s = .identifier n :: t := by
  constructor
  · intro h
    unfold identifier at h
    split at h
    next =>
      cases h
      rfl
    next => cases h
  · intro h
    rw [h]
    rfl

theorem Near.identifier : Blind identifier where
  toDrops := .identifier
  near {z u u' up p q n} _ hr := by
    have hs : p ++ z :: u = (.identifier n :: q) ++ z :: u := identifier_eq_ok.1 hr
    obtain rfl := List.append_cancel_right hs
    exact identifier_eq_ok.2 rfl

theorem Near.group (b : Bracket) : Blind (group b) where
  toDrops := .group b
  near {z u u' up p q a} _ hr := by
    obtain ⟨c, hs, hc⟩ := group_eq_ok_iff.1 hr
    have hs' : p ++ z :: u = (.opening b :: (c ++ .closing b :: q)) ++ z :: u := by simpa using hs
    obtain rfl := List.append_cancel_right hs'
    exact group_eq_ok_iff.2 ⟨c, by simp, hc⟩

theorem Near.angles : Blind angles where
  toDrops := .angles
  near {z u u' up p q a} _ hr := by
    obtain ⟨c, l, hs, hc⟩ := angles_eq_ok_iff.1 hr
    have hs' : p ++ z :: u = (.mark .less :: (c ++ q)) ++ z :: u := by simpa using hs
    obtain rfl := List.append_cancel_right hs'
    exact angles_eq_ok_iff.2 ⟨c, l, by simp, hc⟩

theorem Near.skipTo {stop : List Symbol → Bool} (hstop : Sees stop) : Blind (skipTo stop) where
  toDrops := .skipTo stop
  near {z u u' up p q a} h hr := by
    induction hn : p.length using Nat.strongRecOn generalizing p with
    | ind n ih =>
      subst hn
      have hsees := hstop.sees h.stops u u' p
      by_cases hs : stop (p ++ z :: u)
      · rw [skipTo_of_stop hs] at hr
        obtain rfl := List.append_cancel_right (EStateM.Result.ok.inj hr).2
        exact skipTo_of_stop (hsees ▸ hs)
      have hs₁ : stop (p ++ z :: u) = false := by simpa using hs
      have hs₂ : stop (p ++ z :: u') = false := hsees ▸ hs₁
      cases p with
      | nil =>
        obtain ⟨c, hc, _, hq⟩ := balanced_of_skipTo hr
        have hl := congrArg List.length hc
        simp only [List.nil_append, List.length_append] at hl
        obtain rfl : q = [] := List.length_eq_zero_iff.1 (by omega)
        exact absurd hq hs
      | cons x p =>
        rw [List.cons_append] at hr hs₁ hs₂ ⊢
        by_cases hx : x.isPlain
        · rw [skipTo_plain hx hs₁] at hr
          rw [skipTo_plain hx hs₂]
          exact ih _ (by simp) hr rfl
        cases x with
        | opening b =>
          -- The bracket is closed in front of `z`, since what is left still begins there.
          obtain ⟨outside, ho, ho'⟩ := skipTo_opening hs₁
          rw [ho'] at hr
          obtain ⟨c, s, hp, hc, hrest⟩ := (skim_opened_eq_ok_iff outside ()).1 hr
          rw [ho] at hrest
          obtain ⟨p', rfl⟩ := eq_append_of_suffix ((Drops.skipTo stop).suffix_of_ok hrest)
          have hp' : p ++ z :: u = (c ++ .closing b :: p') ++ z :: u := by simpa using hp
          obtain rfl := List.append_cancel_right hp'
          rw [List.append_assoc, List.cons_append] at hs₂ ⊢
          rw [skipTo_group hc hs₂]
          exact ih _ (by simp; omega) hrest rfl
        | closing b => simp [Rule.skipTo, skim, hs₁] at hr
        | keyword | identifier | number | string | character | mark | operator => exact absurd rfl hx

theorem Near.many {item : Rule (Option α)} (h : Blind item) : Blind (many item) where
  toDrops := .many h.toDrops
  near {z u u' up p q as} hseam hr := by
    induction hn : p.length using Nat.strongRecOn generalizing p as with
    | ind n ih =>
      subst hn
      rw [Rule.many] at hr
      split at hr
      next => cases hr
      next s hi =>
        obtain ⟨rfl, rfl⟩ := EStateM.Result.ok.inj hr
        exact many_nil (h.near hseam hi)
      next a s hi =>
        split at hr
        next hlt =>
          split at hr
          next => cases hr
          next bs t hm =>
            obtain ⟨rfl, rfl⟩ := EStateM.Result.ok.inj hr
            obtain ⟨p', rfl⟩ := eq_append_of_suffix ((Drops.many h.toDrops).suffix_of_ok hm)
            have hlt' : p'.length < p.length := by simpa using hlt
            exact many_cons (h.near hseam hi) (by simpa using hlt') (ih _ hlt' hm rfl)
        next hlt =>
          obtain ⟨rfl, rfl⟩ := EStateM.Result.ok.inj hr
          have hle : ¬ q.length < p.length := by simpa using hlt
          rw [Rule.many, h.near hseam hi]
          simp [hle]

theorem Near.look {c : List Symbol → κ} (hc : Sees c) {k : κ → Rule α} (hk : ∀ a, Blind (k a))
    {r : Rule α} (hr : ∀ s, r s = k (c s) s) : Blind r where
  toDrops := .of_eq fun s => ⟨_, (hk (c s)).toDrops, hr s⟩
  near {z u u' up p q a} h h' := by
    rw [hr, hc.sees h.stops u u' p] at h'
    rw [hr]
    exact (hk _).near h h'

def dottedPartAt : Option String → Rule (Option String)
  | some n => do
    Rule.skip
    Rule.skip
    return some n
  | none => return none

theorem Near.dottedPart : Blind dottedPart := by
  refine .look (k := dottedPartAt) .dotted? (fun n? => ?_) fun s => ?read
  case read =>
    unfold Rule.dottedPart
    split <;> simp_all [dotted?, dottedPartAt] <;> rfl
  cases n? with
  | some n => exact .bind .skip fun _ => .bind .skip fun _ => .pure _ _
  | none => exact .pure _ _

theorem Near.qualifiedName : Blind qualifiedName :=
  .bind .identifier fun _ => .bind (.many .dottedPart) fun _ => .pure _ _

theorem Near.annotationTail : Blind annotationTail :=
  .bind .qualifiedName fun _ => .test (.nextIs _) (.bind (.group _) fun _ => .pure _ _) (.pure _ _)

def modifierAt : Option (Option Modifier) → Rule (Option (Modifier ⊕ String))
  | some (some m) => do
    Rule.skip
    return some (.inl m)
  | some none => do
    Rule.skip
    return some (.inr (← Rule.annotationTail))
  | none => return none

theorem Near.modifier : Blind modifier := by
  refine .look (k := modifierAt) .modifierAhead? (fun m? => ?_) fun s => ?read
  case read =>
    rw [Rule.modifier, get_bind]
    split <;> simp_all [modifierAhead?, modifierAt]
    split <;> rfl
  cases m? with
  | none => exact .pure _ _
  | some m? =>
    cases m? with
    | some m => exact .bind .skip fun _ => .pure _ _
    | none => exact .bind .skip fun _ => .bind .annotationTail fun _ => .pure _ _

theorem Near.annotationOnType : Blind annotationOnType :=
  .test (.nextIs _) (.bind .skip fun _ => .bind .annotationTail fun _ => .pure _ _) (.pure _ _)

def typePartAt : Option TypePart → Rule (Option Unit)
  | some .arguments => do
    Rule.angles
    return some ()
  | some .plain => do
    Rule.skip
    Rule.skip
    return some ()
  | some .annotated => do
    Rule.skip
    let _ ← Rule.many Rule.annotationOnType
    let _ ← Rule.identifier
    return some ()
  | none => return none

theorem Near.typePart : Blind typePart := by
  refine .look (k := typePartAt) .typePartAhead? (fun part? => ?_) fun s => ?read
  case read =>
    rw [Rule.typePart, get_bind]
    split <;> simp_all [typePartAhead?, typePartAt]
  cases part? with
  | none => exact .pure _ _
  | some part =>
    cases part with
    | arguments => exact .bind .angles fun _ => .pure _ _
    | plain => exact .bind .skip fun _ => .bind .skip fun _ => .pure _ _
    | annotated =>
      refine .bind .skip fun _ => .bind (.many .annotationOnType) fun _ => ?_
      exact .bind .identifier fun _ => .pure _ _

theorem Near.dimension : Blind dimension :=
  .test (.nextIs _) (.bind (.group _) fun _ => .pure _ _) (.pure _ _)

def declaratorEnd : Rule (Option String) := do
  match ← Rule.get with
  | .mark .semicolon :: _ =>
    Rule.skip
    return none
  | .mark .comma :: _ =>
    Rule.skip
    return some (← Rule.identifier)
  | _ => Rule.refuseRead (.symbol (.mark .semicolon))

theorem declaratorEnd_eq : declaratorEnd = (do
    if nextIs (.mark .semicolon) (← Rule.get) then
      skip
      return none
    else if nextIs (.mark .comma) (← Rule.get) then
      skip
      return some (← identifier)
    else refuseRead (.symbol (.mark .semicolon))) := by
  funext s
  rw [declaratorEnd, get_bind, get_bind]
  split
  · rfl
  · rfl
  next hsemicolon hcomma =>
    have hs : ¬ nextIs (.mark .semicolon) s := fun h => (nextIs_iff.1 h).elim hsemicolon
    have hc : ¬ nextIs (.mark .comma) s := fun h => (nextIs_iff.1 h).elim hcomma
    rw [if_neg hs, get_bind, if_neg hc]

theorem Near.declaratorEnd : Blind declaratorEnd := by
  rw [declaratorEnd_eq]
  exact .test (.nextIs _) (.bind .skip fun _ => .pure _ _) <|
    .test (.nextIs _) (.bind .skip fun _ => .bind .identifier fun _ => .pure _ _) (.refuseRead _ _)

theorem Near.nextDeclarator : Blind nextDeclarator :=
  .bind (.many .dimension) fun _ => .test (.nextIs _)
    (.bind .skip fun _ => .bind (.skipTo (.or (.nextIs _) .declaratorFollows)) fun _ => .declaratorEnd)
    .declaratorEnd

theorem Near.type : Near Extent.map type fun _ => type :=
  .bind (.many .annotationOnType) fun _ => .bind .unread fun _ => .bind .identifier fun _ =>
    .bind (.many .typePart) fun _ => .bind .unread fun _ => .pure _ _

theorem Near.modifiers : Near (fun up => Modifiers.map (Extent.map up)) modifiers fun _ => modifiers where
  toDrops := .modifiers
  near {z u u' up p q m} h hr := by
    rw [Rule.modifiers, unread_bind] at hr ⊢
    obtain ⟨found, t, hfound, hm⟩ := bind_eq_ok_iff.1 hr
    obtain ⟨rfl, rfl⟩ := EStateM.Result.ok.inj hm
    rw [bind_of_ok ((Near.many .modifier).near h hfound)]
    have hstart := h.up_length p
    have hfirst : up ((p ++ z :: u).length - 1) = (p ++ z :: u').length - 1 := by
      have hup := h.up_add p.length
      simpa using hup
    cases hempty : found.isEmpty with
    | true => rfl
    | false =>
      simp only [Modifiers.map, Bool.false_eq_true, if_false, Option.map_some, Extent.map, hstart, hfirst]
      rfl

theorem typeKeyword_eq_ok {s t : List Symbol} {kind : TypeKind} :
    typeKeyword s = .ok kind t ↔ s = kind.symbols ++ t := by
  constructor
  · intro h
    unfold typeKeyword at h
    split at h
    iterate 3
      next =>
        cases h
        rfl
    next =>
      obtain ⟨_, u, hu, h⟩ := bind_eq_ok_iff.1 h
      obtain rfl := expect_eq_ok_iff.1 hu
      cases h
      rfl
    next =>
      split at h
      next hn =>
        cases h
        rw [hn]
        rfl
      next => cases h
    next => cases h
  · intro h
    rw [h]
    cases kind <;> rfl

theorem Near.typeKeyword : Blind typeKeyword where
  toDrops := .typeKeyword
  near {z u u' up p q kind} _ hr := by
    have hs : p ++ z :: u = (kind.symbols ++ q) ++ z :: u := by simpa using typeKeyword_eq_ok.1 hr
    obtain rfl := List.append_cancel_right hs
    exact typeKeyword_eq_ok.2 (by simp)

end Rule

end MemberOrder
