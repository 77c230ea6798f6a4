import MemberOrder.Proofs.Declaration.Near
import MemberOrder.Proofs.Order.Gather
/-! Where members end. A member that declares no type ends with a semicolon or with a block. In front
of any other such end it is read as the same member: nothing behind it matters, and of a block only that
it is one. Main statement: `Rule.Ends.leaf`. -/
namespace MemberOrder

/-- A member can end with `z` and then `e`: a semicolon, or a block. -/
inductive Closes : Symbol → List Symbol → Prop
  | semicolon : Closes (.mark .semicolon) []
  | block {c} (hc : Balanced c) : Closes (.opening .curly) (c ++ [.closing .curly])

theorem Closes.stops {z : Symbol} {e : List Symbol} (h : Closes z e) : z.Stops := by
  cases h with
  | semicolon => exact .semicolon
  | block => exact .opening

section Accessors

variable {σ τ : Type}

def Member.hasBlock : Member σ τ → Bool
  | .constructor .. | .initializer .. => true
  | .method _ _ _ hasBody _ => hasBody
  | .field .. | .type _ | .empty _ => false

def Member.type? : Member σ τ → Option τ
  | .field _ τ .. => some τ
  | .method _ _ result .. => some result
  | .constructor .. | .type _ | .initializer .. | .empty _ => none

end Accessors

inductive MemberStart
  | semicolon | block | staticBlock | modified
  deriving DecidableEq

def memberStart : List Symbol → MemberStart
  | .mark .semicolon :: _ => .semicolon
  | .opening .curly :: _ => .block
  | .keyword (.modifier .static) :: .opening .curly :: _ => .staticBlock
  | _ => .modified

theorem Sees.memberStart : Sees memberStart := by
  constructor
  intro z hz u u' p
  unfold MemberOrder.memberStart
  match p with
  | [] => cases hz <;> rfl
  | [x] => cases hz <;> grind
  | x :: y :: p => grind

def Extent.Between (n k : Nat) (a : Extent) : Prop :=
  k ≤ a.left ∧ a.left < a.unread ∧ a.unread ≤ n

namespace Rule

variable {α α' : Type}

/-- Where the rule answers something of this sort, it ends with `z` and what can follow `z` at the end
of a member, whatever that is. -/
structure Finishes (z : Symbol) (good : α → Prop) (r : Rule α) : Prop where
  finish {s a t} (h : r s = .ok a t) (ha : good a) : ∃ p e, s = p ++ z :: (e ++ t) ∧ Closes z e ∧
    ∀ e' t', Closes z e' → r (p ++ z :: (e' ++ t')) = .ok a t'

theorem Finishes.block : Finishes (.opening .curly) (fun _ => True) (group .curly) := by
  constructor
  intro s a t h _
  obtain ⟨c, rfl, hc⟩ := group_eq_ok_iff.1 h
  refine ⟨[], c ++ [.closing .curly], by simp, .block hc, fun e' t' he => ?_⟩
  cases he with
  | @block c' hc' => simpa using group_append hc' t'

theorem Finishes.of_semicolon {good : α → Prop} {r : Rule α}
    (h : ∀ {s a t}, r s = .ok a t → good a → ∃ p, s = p ++ .mark .semicolon :: t ∧
      ∀ t', r (p ++ .mark .semicolon :: t') = .ok a t') : Finishes (.mark .semicolon) good r := by
  constructor
  intro s a t hr ha
  obtain ⟨p, hp, hagain⟩ := h hr ha
  refine ⟨p, [], hp, .semicolon, fun e' t' he => ?_⟩
  cases he with
  | semicolon => exact hagain t'

theorem Finishes.semicolon :
    Finishes (.mark .semicolon) (fun _ => True) (expect (.mark .semicolon)) :=
  .of_semicolon fun h _ => ⟨[], expect_eq_ok_iff.1 h, fun _ => expect_eq_ok_iff.2 rfl⟩

theorem Blind.again {r : Rule α} (h : Blind r) {z : Symbol} (hz : z.Stops) {p q u : List Symbol} {a : α}
    (hr : r (p ++ z :: u) = .ok a (q ++ z :: u)) (u' : List Symbol) :
    r (p ++ z :: u') = .ok a (q ++ z :: u') := by
  obtain ⟨up, hseam⟩ := exists_seam hz u u'
  exact h.near hseam hr

theorem Finishes.bind {β : Type} {z : Symbol} {good : β → Prop} {x : Rule α} {k : α → Rule β}
    (hz : z.Stops) (hx : Blind x) (hk : ∀ a, Finishes z good (k a)) : Finishes z good (x >>= k) := by
  constructor
  intro s b t h hb
  obtain ⟨a, s₁, ha, hr⟩ := bind_eq_ok_iff.1 h
  obtain ⟨p, e, rfl, he, hagain⟩ := (hk a).finish hr hb
  obtain ⟨c, rfl⟩ := hx.suffix_of_ok ha
  rw [← List.append_assoc] at ha
  refine ⟨c ++ p, e, by simp, he, fun e' t' he' => ?_⟩
  rw [bind_of_ok (hx.again hz ha (e' ++ t'))]
  exact hagain e' t' he'

theorem Finishes.test {z : Symbol} {good : α → Prop} {c : List Symbol → Bool} (hz : z.Stops) (hc : Sees c)
    {x y : Rule α} (hx : Finishes z good x) (hy : Finishes z good y) :
    Finishes z good (Rule.get >>= fun s => if c s then x else y) := by
  constructor
  intro s a t h ha
  have hbranch {r : Rule α} (hr : Finishes z good r) (hs : r s = .ok a t) (hsame : ∀ u, c u = c s →
      (Rule.get >>= fun s => if c s then x else y : Rule α) u = r u) : ∃ p e,
      s = p ++ z :: (e ++ t) ∧ Closes z e ∧ ∀ e' t', Closes z e' →
        (Rule.get >>= fun s => if c s then x else y : Rule α) (p ++ z :: (e' ++ t')) = .ok a t' := by
    obtain ⟨p, e, rfl, he, hagain⟩ := hr.finish hs ha
    refine ⟨p, e, rfl, he, fun e' t' he' => ?_⟩
    rw [hsame _ (hc.sees hz _ _ p)]
    exact hagain e' t' he'
  rw [get_bind] at h
  split at h
  next hs => exact hbranch hx h fun u hu => by rw [get_bind, if_pos (hu ▸ hs)]
  next hs => exact hbranch hy h fun u hu => by rw [get_bind, if_neg (hu ▸ hs)]

theorem Finishes.statement : Finishes (.mark .semicolon) (fun _ => True) statement :=
  .of_semicolon fun {s _ t} h _ => by
    obtain ⟨_, s₁, hs, hskip⟩ := bind_eq_ok_iff.1 h
    obtain ⟨c, rfl, _, hstop⟩ := balanced_of_skipTo hs
    obtain ⟨u, rfl⟩ := nextIs_iff.1 hstop
    obtain ⟨_, rfl⟩ := EStateM.Result.ok.inj hskip
    refine ⟨c, rfl, fun t' => ?_⟩
    have hagain := (Near.skipTo (.nextIs _)).again .semicolon (q := []) hs t'
    exact bind_of_ok hagain

theorem declaratorEnd_eq_none {s t : List Symbol} (h : declaratorEnd s = .ok none t) :
    s = .mark .semicolon :: t := by
  rw [declaratorEnd, get_bind] at h
  split at h
  next =>
    cases h
    rfl
  next =>
    rw [skip_bind] at h
    obtain ⟨n, u, _, h⟩ := bind_eq_ok_iff.1 h
    cases h
  next => cases h

theorem Finishes.nextDeclarator : Finishes (.mark .semicolon) (· = none) nextDeclarator := by
  have hend : Finishes (.mark .semicolon) (· = none) declaratorEnd :=
    .of_semicolon fun {s o t} h ho => by
      subst ho
      obtain rfl := declaratorEnd_eq_none h
      exact ⟨[], rfl, fun _ => rfl⟩
  exact .bind .semicolon (.many .dimension) fun _ => .test .semicolon (.nextIs _)
    (.bind .semicolon .skip fun _ =>
      .bind .semicolon (.skipTo (.or (.nextIs _) .declaratorFollows)) fun _ => hend)
    hend

theorem declaratorEnd_shorter {s t : List Symbol} {o : Option String}
    (h : declaratorEnd s = .ok o t) : t.length < s.length := by
  rw [declaratorEnd, get_bind] at h
  split at h
  next =>
    cases h
    simp
  next u =>
    rw [skip_bind] at h
    have hle := (Drops.bind .identifier fun _ => .pure _).suffix_of_ok h |>.length_le
    simp only [List.length_cons]
    omega
  next => cases h

theorem nextDeclarator_shorter {s t : List Symbol} {o : Option String}
    (h : nextDeclarator s = .ok o t) : t.length < s.length := by
  obtain ⟨_, s₁, hdims, h⟩ := bind_eq_ok_iff.1 h
  have hle := (Drops.many .dimension).suffix_of_ok hdims |>.length_le
  rw [get_bind] at h
  split at h
  next =>
    obtain ⟨_, s₂, hskip, h⟩ := bind_eq_ok_iff.1 h
    obtain ⟨_, s₃, hto, h⟩ := bind_eq_ok_iff.1 h
    have hle₂ := Drops.skip.suffix_of_ok hskip |>.length_le
    have hle₃ := (Drops.skipTo _).suffix_of_ok hto |>.length_le
    have hlt := declaratorEnd_shorter h
    omega
  next =>
    have hlt := declaratorEnd_shorter h
    omega

theorem Finishes.declarators : Finishes (.mark .semicolon) (fun _ => True) (many Rule.nextDeclarator) := by
  refine .of_semicolon fun {s ns t} h _ => ?_
  induction hn : s.length using Nat.strongRecOn generalizing s ns with
  | ind n ih =>
    subst hn
    rw [many] at h
    split at h
    next => cases h
    next u hi =>
      cases h
      obtain ⟨p, e, rfl, he, hagain⟩ := Finishes.nextDeclarator.finish hi rfl
      cases he
      exact ⟨p, rfl, fun t' => many_nil (hagain [] t' .semicolon)⟩
    next n u hi =>
      split at h
      next hlt =>
        split at h
        next => cases h
        next ns' v hm =>
          cases h
          obtain ⟨p, rfl, hagain⟩ := ih _ hlt hm rfl
          obtain ⟨c, rfl⟩ := Near.nextDeclarator.suffix_of_ok hi
          rw [← List.append_assoc] at hi
          refine ⟨c ++ p, by simp, fun t' => ?_⟩
          have hi' := Near.nextDeclarator.again .semicolon hi t'
          exact many_cons hi' (by simpa using hlt) (hagain t')
      next hlt => exact absurd (nextDeclarator_shorter hi) hlt

/-- The member `x`, read from `s` up to `t`, ends with `z` and `e`, and in front of any other end of
this sort `r` reads the same member. Only the type may have been read before. -/
structure EndsWith (r : (Nat → Nat) → Rule RawMember) (before : Option Extent) (s : List Symbol)
    (x : RawMember) (t p : List Symbol) (z : Symbol) (e : List Symbol) : Prop where
  text : s = p ++ z :: (e ++ t)
  closes : Closes z e
  block : x.hasBlock → z = .opening .curly
  typed : ∀ a ∈ x.type?, before = some a ∨ a.Between s.length (z :: (e ++ t)).length
  again {e' t' : List Symbol} {up : Nat → Nat} (he : Closes z e')
    (hseam : Seam z (e ++ t) (e' ++ t') up) (ht : up t.length = t'.length) :
    r up (p ++ z :: (e' ++ t')) = .ok (x.map (Extent.map up) (Extent.map up)) t'

structure Ends (before : Option Extent) (r : Rule RawMember) (r' : (Nat → Nat) → Rule RawMember) :
    Prop where
  ends {s x t} (h : r s = .ok x t) : ∃ p z e, EndsWith r' before s x t p z e

variable {before : Option Extent}

theorem Ends.bind {f : (Nat → Nat) → α → α'} {x : Rule α} {x' : (Nat → Nat) → Rule α'}
    {k : α → Rule RawMember} {k' : (Nat → Nat) → α' → Rule RawMember} (hx : Near f x x')
    (hk : ∀ a, Ends before (k a) fun up => k' up (f up a)) :
    Ends before (x >>= k) fun up => x' up >>= k' up := by
  constructor
  intro s b t h
  obtain ⟨a, s₁, ha, hb⟩ := bind_eq_ok_iff.1 h
  obtain ⟨p, z, e, hend⟩ := (hk a).ends hb
  obtain rfl := hend.text
  obtain ⟨c, rfl⟩ := hx.suffix_of_ok ha
  rw [← List.append_assoc] at ha
  refine ⟨c ++ p, z, e, by simp, hend.closes, hend.block, fun a ha => ?_, fun he hseam ht => ?_⟩
  · refine (hend.typed a ha).imp_right fun hbetween => ?_
    obtain ⟨hleft, hlt, hunread⟩ := hbetween
    exact ⟨hleft, hlt, hunread.trans (by simp)⟩
  · rw [bind_of_ok (hx.near hseam ha)]
    exact hend.again he hseam ht

theorem Ends.look {κ : Type} {c : List Symbol → κ} (hc : Sees c) {k : κ → Rule RawMember}
    {l : κ → (Nat → Nat) → Rule RawMember} (hk : ∀ a, Ends before (k a) (l a)) :
    Ends before (Rule.get >>= fun s => k (c s)) fun up =>
      Rule.get >>= fun s => l (c s) up := by
  constructor
  intro s x t h
  rw [get_bind] at h
  obtain ⟨p, z, e, hend⟩ := (hk _).ends h
  refine ⟨p, z, e, { hend with again := fun {e' t' up} he hseam ht => ?_ }⟩
  obtain rfl := hend.text
  rw [get_bind, hc.sees hseam.stops _ (e ++ t) p]
  exact hend.again he hseam ht

theorem Ends.ite {p : Prop} [Decidable p] {x y : Rule RawMember}
    {x' y' : (Nat → Nat) → Rule RawMember} (hx : Ends before x x') (hy : Ends before y y') :
    Ends before (if p then x else y) fun up => if p then x' up else y' up := by
  split
  · exact hx
  · exact hy

theorem Ends.test {c : List Symbol → Bool} (hc : Sees c) {x y : Rule RawMember}
    {x' y' : (Nat → Nat) → Rule RawMember} (hx : Ends before x x') (hy : Ends before y y') :
    Ends before (Rule.get >>= fun s => if c s then x else y) fun up =>
      Rule.get >>= fun s => if c s then x' up else y' up :=
  .look (k := fun b => if b then x else y) (l := fun b up => if b then x' up else y' up) hc
    fun _ => .ite hx hy

theorem Ends.since {z : Symbol} {r : Rule α} (hr : Finishes z (fun _ => True) r) (start : Nat)
    {f : α → Extent → RawMember} {f' : (Nat → Nat) → α → Extent → RawMember}
    (hf : ∀ up a e, f' up a (e.map up) = (f a e).map (Extent.map up) (Extent.map up))
    (hblock : ∀ a e, (f a e).hasBlock → z = .opening .curly)
    (htype : ∀ a e, ∀ type ∈ (f a e).type?, before = some type) :
    Ends before (do let a ← r; return f a (← since start)) fun up => do
      let a ← r
      return f' up a (← since (up start)) := by
  constructor
  intro s x t h
  obtain ⟨a, s₁, ha, hx⟩ := bind_eq_ok_iff.1 h
  obtain ⟨p, e, hp, he, hagain⟩ := hr.finish ha trivial
  obtain ⟨rfl, rfl⟩ := EStateM.Result.ok.inj hx
  refine ⟨p, z, e, hp, he, hblock _ _, fun type htyped => .inl (htype _ _ type htyped),
    fun {e' t' up} he' _ ht => ?_⟩
  rw [bind_of_ok (hagain e' t' he')]
  have hspan : Extent.mk (up start) t'.length = Extent.map up ⟨start, s₁.length⟩ := by
    rw [← ht]
    rfl
  change EStateM.Result.ok (f' up a ⟨up start, t'.length⟩) t' = _
  rw [hspan, hf]

theorem Ends.initializer (start : Nat) (isStatic : Bool) :
    Ends before (initializer start isStatic) fun up => Rule.initializer (up start) isStatic :=
  .since .block start (fun _ _ _ => rfl) (fun _ _ _ => rfl) fun _ _ _ h => by cases h

theorem Ends.constructor (start : Nat) (m : Modifiers Extent) (compact : Bool) :
    Ends before (constructor start m compact) fun up =>
      Rule.constructor (up start) (m.map (Extent.map up)) compact := by
  refine .bind .identifier fun name => .ite ?_ ?_
  · refine .bind (.group _) fun _ => .bind (.skipTo (.nextIs _)) fun _ => ?_
    exact .since .block start (fun _ _ _ => rfl) (fun _ _ _ => rfl) fun _ _ _ h => by cases h
  · exact .since .block start (fun _ _ _ => rfl) (fun _ _ _ => rfl) fun _ _ _ h => by cases h

theorem Ends.field (start : Nat) (m : Modifiers Extent) (type : Extent) (name : String) :
    Ends (some type) (field start m type name) fun up =>
      Rule.field (up start) (m.map (Extent.map up)) (type.map up) name :=
  .since .declarators start (fun _ _ _ => rfl) (fun _ _ h => by cases h) fun _ _ _ h => h

def methodEnd (start : Nat) (m : Modifiers Extent) (result : Extent) (name : String)
    (hasBody : Bool) : Rule RawMember := do
  if hasBody then group .curly else statement
  return .method m name result hasBody (← Rule.since start)

theorem Ends.methodEnd (start : Nat) (m : Modifiers Extent) (result : Extent) (name : String)
    (hasBody : Bool) : Ends (some result) (methodEnd start m result name hasBody) fun up =>
      Rule.methodEnd (up start) (m.map (Extent.map up)) (result.map up) name hasBody := by
  cases hasBody with
  | true => exact .since .block start (fun _ _ _ => rfl) (fun _ _ _ => rfl) fun _ _ _ h => h
  | false => exact .since .statement start (fun _ _ _ => rfl) (fun _ _ h => by cases h) fun _ _ _ h => h

theorem Ends.method (start : Nat) (m : Modifiers Extent) (result : Extent) (name : String) :
    Ends (some result) (method start m result name) fun up =>
      Rule.method (up start) (m.map (Extent.map up)) (result.map up) name := by
  refine .bind (.group _) fun _ => .bind (.skipTo ?_) fun _ => ?_
  · exact .or (.or (.nextIs _) (.nextIs _)) (.nextIs _)
  · exact .look (.nextIs _) fun hasBody => .methodEnd start m result name hasBody

theorem type_between {s t : List Symbol} {a : Extent} (h : type s = .ok a t) :
    a.Between s.length t.length := by
  obtain ⟨_, s₁, hannotations, h⟩ := bind_eq_ok_iff.1 h
  have hle := (Drops.many .annotationOnType).suffix_of_ok hannotations |>.length_le
  rw [unread_bind] at h
  obtain ⟨n, s₂, hn, h⟩ := bind_eq_ok_iff.1 h
  obtain rfl := identifier_eq_ok.1 hn
  obtain ⟨_, s₃, hparts, h⟩ := bind_eq_ok_iff.1 h
  have hle₃ := (Drops.many .typePart).suffix_of_ok hparts |>.length_le
  obtain ⟨rfl, rfl⟩ := EStateM.Result.ok.inj h
  exact ⟨le_refl _, Nat.lt_succ_of_le hle₃, hle⟩

theorem Ends.typed {k : Extent → Rule RawMember} {k' : (Nat → Nat) → Extent → Rule RawMember}
    (hk : ∀ a, Ends (some a) (k a) fun up => k' up (a.map up)) :
    Ends before (type >>= k) fun up => type >>= k' up := by
  constructor
  intro s x t h
  obtain ⟨a, s₁, ha, hx⟩ := bind_eq_ok_iff.1 h
  obtain ⟨p, z, e, hend⟩ := (hk a).ends hx
  have hbetween := type_between ha
  obtain rfl := hend.text
  obtain ⟨c, rfl⟩ := Drops.type.suffix_of_ok ha
  rw [← List.append_assoc] at ha
  refine ⟨c ++ p, z, e, by simp, hend.closes, hend.block, fun b hb => .inr ?_, fun he hseam ht => ?_⟩
  · simp only [Extent.Between, List.length_append] at hbetween ⊢
    obtain hab | hbetween' := hend.typed b hb
    · obtain rfl := Option.some.inj hab
      omega
    · simp only [Extent.Between, List.length_append] at hbetween'
      omega
  · rw [bind_of_ok (Near.type.near hseam ha)]
    exact hend.again he hseam ht

theorem Ends.never {r : Rule RawMember} (h : ∀ s x t, r s ≠ .ok x t) (r' : (Nat → Nat) → Rule RawMember) :
    Ends before r r' :=
  ⟨fun hr => absurd hr (h _ _ _)⟩

def formed (start : Nat) (m : Modifiers Extent) : Option Bool → Rule RawMember
  | some compact => Rule.constructor start m compact
  | none => do
    let type ← Rule.type
    let name ← identifier
    if nextIs (.opening .round) (← Rule.get) then method start m type name
    else field start m type name

theorem Ends.formed (start : Nat) (m : Modifiers Extent) (form? : Option Bool) :
    Ends before (formed start m form?) fun up => Rule.formed (up start) (m.map (Extent.map up)) form? := by
  cases form? with
  | some compact => exact .constructor start m compact
  | none =>
    refine .typed fun type => .bind .identifier fun name => ?_
    exact .test (.nextIs _) (.method start m type name) (.field start m type name)

section Leaf

variable (kind : TypeKind) (owner : String)

def modifiedLeaf (start : Nat) (m : Modifiers Extent) : Rule RawMember :=
  modifiedMember (typeDecl 0) kind owner start m

theorem Ends.modifiedLeaf (start : Nat) (m : Modifiers Extent) :
    Ends before (modifiedLeaf kind owner start m) fun up =>
      Rule.modifiedLeaf kind owner (up start) (m.map (Extent.map up)) := by
  refine .test .declaresType (.never ?never _) ?leaf
  case never =>
    intro s x t h
    obtain ⟨d, u, hd, _⟩ := bind_eq_ok_iff.1 h
    cases hd
  refine .test (.nextIs _) (.bind .angles fun _ => ?rest) ?rest
  exact .look (l := fun form? up => Rule.formed (up start) (m.map (Extent.map up)) form?)
    (.constructorForm? kind owner) fun form? => .formed start m form?

theorem Makes.modifiedLeaf (start : Nat) (m : Modifiers Extent) :
    Makes start (some m) (modifiedLeaf kind owner start m) := by
  constructor
  intro s x t h
  rw [Rule.modifiedLeaf, modifiedMember, get_bind] at h
  split at h
  next =>
    obtain ⟨d, u, hd, _⟩ := bind_eq_ok_iff.1 h
    cases hd
  next =>
    refine Makes.made ?_ h
    refine .bind fun _ => .ite (.bind fun _ => ?rest) ?rest
    refine .bind fun _ => ?_
    split
    · exact .constructor ..
    · exact .bind fun _ => .bind fun _ => .bind fun _ => .ite (.method ..) (.field ..)

def memberAt (nested : Nat → Modifiers Extent → Rule RawType) (start : Nat) :
    MemberStart → Rule RawMember
  | .semicolon => do
    expect (.mark .semicolon)
    return .empty (← Rule.since start)
  | .block => Rule.initializer start false
  | .staticBlock => do
    Rule.skip
    Rule.initializer start true
  | .modified => do modifiedMember nested kind owner start (← Rule.modifiers)

theorem member_eq (nested : Nat → Modifiers Extent → Rule RawType) (s : List Symbol) :
    member nested kind owner s = memberAt kind owner nested s.length (memberStart s) s := by
  rw [member, unread_bind, get_bind]
  split
  · rfl
  · rfl
  · rfl
  · rw [memberStart]
    · rfl
    all_goals assumption

def leaf : Rule RawMember :=
  member (typeDecl 0) kind owner

theorem Ends.leaf : Ends none (leaf kind owner) fun _ => Rule.leaf kind owner := by
  have hat (start : Nat) (c : MemberStart) :
      Ends none (memberAt kind owner (typeDecl 0) start c) fun up =>
        memberAt kind owner (typeDecl 0) (up start) c := by
    cases c with
    | semicolon => exact .since .semicolon start (fun _ _ _ => rfl) (fun _ _ h => by cases h) fun _ _ _ h => by cases h
    | block => exact .initializer start false
    | staticBlock => exact .bind .skip fun _ => .initializer start true
    | modified => exact .bind .modifiers fun m => .modifiedLeaf kind owner start m
  constructor
  intro s x t h
  rw [Rule.leaf, member_eq] at h
  obtain ⟨p, z, e, hend⟩ := (hat _ _).ends h
  refine ⟨p, z, e, { hend with again := fun {e' t' up} he hseam ht => ?_ }⟩
  have hagain := hend.again he hseam ht
  obtain rfl := hend.text
  rw [hseam.up_length, Sees.memberStart.sees hseam.stops _ (e' ++ t')] at hagain
  rw [Rule.leaf, member_eq]
  exact hagain

theorem Makes.memberAt (nested : Nat → Modifiers Extent → Rule RawType) (start : Nat) {c : MemberStart}
    (hc : c ≠ .modified) : Makes start none (memberAt kind owner nested start c) := by
  cases c with
  | semicolon => exact .bind fun _ => .since (f := .empty) fun _ => ⟨rfl, rfl, by simp⟩
  | block => exact .initializer false
  | staticBlock => exact .bind fun _ => .initializer true
  | modified => exact absurd rfl hc

theorem leaf_eq_ok {s t : List Symbol} {x : RawMember} (h : leaf kind owner s = .ok x t) :
    x.Placed s.length t.length ∧ x.IsLeaf := by
  refine ⟨(member_placed (typeDecl_laid s 0) h (List.suffix_refl s)).1, ?_⟩
  rw [leaf, member_eq] at h
  by_cases hstart : memberStart s = .modified
  · rw [hstart] at h
    obtain ⟨m, s₁, _, hx⟩ := bind_eq_ok_iff.1 h
    exact ((Makes.modifiedLeaf kind owner s.length m).made hx).2.2
  · exact ((Makes.memberAt kind owner (typeDecl 0) s.length hstart).made h).2.2

theorem member_eq_ok_iff {nested : Nat → Modifiers Extent → Rule RawType} {s t : List Symbol}
    {x : RawMember} : member nested kind owner s = .ok x t ↔ leaf kind owner s = .ok x t ∨
      ∃ m s₁ d, memberStart s = .modified ∧ modifiers s = .ok m s₁ ∧ declaresType s₁ ∧
        nested s.length m s₁ = .ok d t ∧ x = .type d := by
  rw [leaf, member_eq, member_eq]
  cases hstart : memberStart s with
  | semicolon | block | staticBlock => simp [memberAt]
  | modified =>
    simp only [memberAt, true_and, bind_eq_ok_iff]
    constructor
    · intro h
      obtain ⟨m, s₁, hm, hx⟩ := h
      by_cases hd : declaresType s₁
      · right
        rw [modifiedMember, get_bind, if_pos hd] at hx
        obtain ⟨d, u, hd', hx⟩ := bind_eq_ok_iff.1 hx
        obtain ⟨rfl, rfl⟩ := EStateM.Result.ok.inj hx
        exact ⟨m, s₁, d, hm, hd, hd', rfl⟩
      · left
        rw [modifiedMember, get_bind, if_neg hd] at hx
        refine ⟨m, s₁, hm, ?_⟩
        rw [modifiedMember, get_bind, if_neg hd]
        exact hx
    · intro h
      obtain ⟨m, s₁, hm, hx⟩ | ⟨m, s₁, d, hm, hd, hd', rfl⟩ := h
      · refine ⟨m, s₁, hm, ?_⟩
        by_cases hd : declaresType s₁
        · rw [modifiedMember, get_bind, if_pos hd] at hx
          obtain ⟨d, u, hd', _⟩ := bind_eq_ok_iff.1 hx
          cases hd'
        · rw [modifiedMember, get_bind, if_neg hd] at hx ⊢
          exact hx
      · refine ⟨m, s₁, hm, ?_⟩
        rw [modifiedMember, get_bind, if_pos hd]
        exact bind_of_ok hd'

end Leaf

end Rule

end MemberOrder
