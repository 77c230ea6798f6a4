import MemberOrder.Proofs.Declaration.Accepted
/-! Where the declarations of a text lie in its symbols: a body is its constants, if it is that of an
enum, and then its members, one behind the other. Main statement: `Rule.typeDecl_laid`. -/
namespace MemberOrder

variable {σ σ' τ τ' : Type}

/-- `d.Holds e`: the declaration `e` is `d`, or stands in the body of `d` at any depth. -/
inductive TypeDecl.Holds : TypeDecl σ τ → TypeDecl σ τ → Prop
  | self {d} : Holds d d
  | inner {d e f} (he : .type e ∈ d.members) (hf : Holds e f) : Holds d f

section Map

variable (f : σ → σ') (g : τ → τ') (d : TypeDecl σ τ)

@[simp] theorem TypeDecl.kind_map : (d.map f g).kind = d.kind := by
  cases d
  rfl

@[simp] theorem TypeDecl.span_map : (d.map f g).span = f d.span := by
  cases d
  rfl

@[simp] theorem TypeDecl.body_map : (d.map f g).body = f d.body := by
  cases d
  rfl

@[simp] theorem TypeDecl.members_map : (d.map f g).members = d.members.map (Member.map f g) := by
  obtain ⟨kind, name, m, xs, body, span⟩ := d
  simp [map, TypeDecl.members, Member.mapAll_eq_map]

@[simp] theorem Member.span_map (x : Member σ τ) : (x.map f g).span = f x.span := by
  cases x with
  | type d => exact d.span_map f g
  | field | constructor | method | initializer | empty => rfl

end Map

theorem TypeDecl.Holds.of_map {f : σ → σ'} {g : τ → τ'} {d : TypeDecl σ τ} {e' : TypeDecl σ' τ'}
    (h : (d.map f g).Holds e') : ∃ e, d.Holds e ∧ e' = e.map f g := by
  generalize hd : d.map f g = d' at h
  induction h generalizing d with
  | self => exact ⟨d, .self, hd.symm⟩
  | @inner d' e₁ e' he _ ih =>
    rw [← hd, members_map] at he
    obtain ⟨x, hx, hxe⟩ := List.mem_map.1 he
    cases x with
    | type e₀ =>
      rw [Member.map] at hxe
      obtain ⟨e, hh, rfl⟩ := ih (Member.type.inj hxe)
      exact ⟨e, .inner hx hh, rfl⟩
    | field | constructor | method | initializer | empty => simp [Member.map] at hxe

def Member.modifiers? : Member σ τ → Option (Modifiers σ)
  | field m .. | constructor m .. | method m .. => some m
  | type d => some d.modifiers
  | initializer .. | empty _ => none

def Modifiers.Front (n : Nat) (m : Modifiers Extent) : Prop :=
  ∀ a ∈ m.first?, a = ⟨n, n - 1⟩

structure Member.Placed (n k : Nat) (x : RawMember) : Prop where
  span : x.span = ⟨n, k⟩
  front : ∀ m ∈ x.modifiers?, m.Front n

/-- Members of which each begins where the one before it ends. -/
inductive Member.Tiles : Nat → List RawMember → Nat → Prop
  | nil {n} : Tiles n [] n
  | cons {n k l x xs} (hlt : k < n) (hx : x.Placed n k) (hxs : Tiles k xs l) : Tiles n (x :: xs) l

/-- What stands in a body in front of the members: in that of an enum, all up to the first semicolon
outside brackets, and the semicolon. Without one there are no members. -/
inductive ConstantSection : TypeKind → List Symbol → List Symbol → Prop
  | none {kind rest} (h : kind ≠ .enum) : ConstantSection kind [] rest
  | ended {c rest} (h : BalancedOver (· ≠ .mark .semicolon) c) :
      ConstantSection .enum (c ++ [.mark .semicolon]) rest
  | whole {c} (h : BalancedOver (· ≠ .mark .semicolon) c) : ConstantSection .enum c []

def braced (constants rest behind : List Symbol) : List Symbol :=
  .opening .curly :: (constants ++ (rest ++ .closing .curly :: behind))

/-- The place of a declaration in a text: what is in front of its body, the constants and the members
in the body, and what is behind it. -/
structure TypeDecl.Placed (w head constants rest behind : List Symbol) (d : RawType) : Prop where
  text : head ++ braced constants rest behind <:+ w
  matched : ∃ loose, BalancedBut (constants ++ rest) loose
  constantSection : ConstantSection d.kind constants rest
  span : d.span = ⟨(head ++ braced constants rest behind).length, behind.length⟩
  body : d.body = ⟨(braced constants rest behind).length, behind.length⟩
  front : d.modifiers.Front d.span.unread
  tiles : Member.Tiles (rest ++ .closing .curly :: behind).length d.members (behind.length + 1)

def TypeDecl.Laid (w : List Symbol) (d : RawType) : Prop :=
  ∀ e, d.Holds e → ∃ head constants rest behind, e.Placed w head constants rest behind

namespace Rule

variable {α β : Type}

theorem modifiers_front {s t : List Symbol} {m : Modifiers Extent} (h : modifiers s = .ok m t) :
    m.Front s.length := by
  rw [modifiers, unread_bind] at h
  obtain ⟨found, t', _, h⟩ := bind_eq_ok_iff.1 h
  cases h
  intro a ha
  by_cases hf : found.isEmpty <;> simp_all

structure Reads (r : Rule α) : Prop where
  shorter {s a t} : r s = .ok a t → t.length < s.length

theorem Reads.bind {x : Rule α} {f : α → Rule β} (hx : Reads x) (hf : ∀ a, Keeps (f a)) :
    Reads (x >>= f) := by
  constructor
  intro s b u h
  obtain ⟨a, t, ha, hb⟩ := bind_eq_ok_iff.1 h
  have hlt := hx.shorter ha
  have hle := ((hf a).passed hb).length_le
  omega

theorem Reads.behind {x : Rule α} {f : α → Rule β} (hx : Keeps x) (hf : ∀ a, Reads (f a)) :
    Reads (x >>= f) := by
  constructor
  intro s b u h
  obtain ⟨a, t, ha, hb⟩ := bind_eq_ok_iff.1 h
  have hle := (hx.passed ha).length_le
  have hlt := (hf a).shorter hb
  omega

theorem Reads.identifier : Reads identifier := by
  constructor
  intro s a t h
  unfold Rule.identifier at h
  split at h
  next =>
    cases h
    simp
  next => cases h

theorem Reads.group (b : Bracket) : Reads (group b) := by
  constructor
  intro s a t h
  obtain ⟨c, rfl, _⟩ := group_eq_ok_iff.1 h
  simp
  omega

structure Makes (start : Nat) (m? : Option (Modifiers Extent)) (r : Rule RawMember) : Prop where
  made {s x t} : r s = .ok x t → x.span = ⟨start, t.length⟩ ∧ x.modifiers? = m? ∧ ∀ d, x ≠ .type d

variable {start : Nat} {m? : Option (Modifiers Extent)}

theorem Makes.bind {x : Rule α} {f : α → Rule RawMember} (hf : ∀ a, Makes start m? (f a)) :
    Makes start m? (x >>= f) := by
  constructor
  intro s b u h
  obtain ⟨a, t, _, hb⟩ := bind_eq_ok_iff.1 h
  exact (hf a).made hb

theorem Makes.ite {p : Prop} [Decidable p] {x y : Rule RawMember} (hx : Makes start m? x)
    (hy : Makes start m? y) : Makes start m? (if p then x else y) := by
  split
  · exact hx
  · exact hy

theorem Makes.since {f : Extent → RawMember}
    (hf : ∀ e, (f e).span = e ∧ (f e).modifiers? = m? ∧ ∀ d, f e ≠ .type d) :
    Makes start m? (do return f (← since start)) := by
  constructor
  intro s x t h
  cases h
  exact hf _

theorem Makes.initializer (isStatic : Bool) : Makes start none (initializer start isStatic) :=
  .bind fun _ => .since fun _ => ⟨rfl, rfl, by simp⟩

theorem Makes.constructor (m : Modifiers Extent) (compact : Bool) :
    Makes start (some m) (constructor start m compact) := by
  refine .bind fun _ => .ite ?_ ?_
  · exact .bind fun _ => .bind fun _ => .bind fun _ => .since fun _ => ⟨rfl, rfl, by simp⟩
  · exact .bind fun _ => .since fun _ => ⟨rfl, rfl, by simp⟩

theorem Makes.method (m : Modifiers Extent) (result : Extent) (name : String) :
    Makes start (some m) (method start m result name) := by
  refine .bind fun _ => .bind fun _ => .bind fun _ => .ite ?_ ?_
  · exact .bind fun _ => .since fun _ => ⟨rfl, rfl, by simp⟩
  · exact .bind fun _ => .since fun _ => ⟨rfl, rfl, by simp⟩

theorem Makes.field (m : Modifiers Extent) (type : Extent) (name : String) :
    Makes start (some m) (field start m type name) :=
  .bind fun _ => .since fun _ => ⟨rfl, rfl, by simp⟩

theorem Makes.placed {r : Rule RawMember} (hr : Makes start m? r) {s t : List Symbol}
    {x : RawMember} (h : r s = .ok x t) (hm : ∀ m ∈ m?, m.Front start) :
    x.Placed start t.length ∧ ∀ d, x ≠ .type d := by
  obtain ⟨hspan, hmodifiers, htype⟩ := hr.made h
  exact ⟨⟨hspan, by rwa [hmodifiers]⟩, htype⟩

theorem Reads.ite {p : Prop} [Decidable p] {x y : Rule α} (hx : Reads x) (hy : Reads y) :
    Reads (if p then x else y) := by
  split
  · exact hx
  · exact hy

theorem Reads.initializer (start : Nat) (isStatic : Bool) : Reads (initializer start isStatic) :=
  .bind (.group _) fun _ => .bind (.since _) fun _ => .pure _

theorem Reads.constructor (start : Nat) (m : Modifiers Extent) (compact : Bool) :
    Reads (constructor start m compact) := by
  refine .behind .identifier fun _ => .ite ?_ ?_
  · exact .bind (.group _) fun _ => .bind (.skipTo _) fun _ => .bind (.group _) fun _ =>
      .bind (.since _) fun _ => .pure _
  · exact .bind (.group _) fun _ => .bind (.since _) fun _ => .pure _

structure Lays (w : List Symbol) (nested : Nat → Modifiers Extent → Rule RawType) : Prop where
  keeps (start m) : Keeps (nested start m)
  reads (start m) : Reads (nested start m)
  laid {a m s d t} : nested a.length m s = .ok d t → Passed a s → a <:+ w → m.Front a.length →
    d.span = ⟨a.length, t.length⟩ ∧ d.modifiers = m ∧ d.Laid w

section Members

variable {nested : Nat → Modifiers Extent → Rule RawType} {kind : TypeKind} {owner : String}
  {w s t : List Symbol}

theorem Reads.modifiedMember (hn : ∀ start m, Reads (nested start m)) (start : Nat)
    (m : Modifiers Extent) : Reads (modifiedMember nested kind owner start m) := by
  refine .behind .get fun _ => .ite (.bind (hn start m) fun _ => .pure _) <|
    .behind .get fun _ => .ite (.behind .angles fun _ => ?rest) ?rest
  refine .behind .get fun _ => ?_
  split
  · exact .constructor ..
  · exact .behind .type fun _ => .bind .identifier fun _ => .bind .get fun _ =>
      .ite (.method ..) (.field ..)

theorem Reads.member (hn : ∀ start m, Reads (nested start m)) :
    Reads (member nested kind owner) := by
  constructor
  intro s x t h
  rw [Rule.member, unread_bind, get_bind] at h
  split at h
  next =>
    cases h
    simp
  next => exact (Reads.initializer ..).shorter h
  next =>
    rw [skip_bind] at h
    have hlt := (Reads.initializer ..).shorter h
    simp only [List.length_cons] at hlt ⊢
    omega
  next => exact (Reads.behind .modifiers fun _ => .modifiedMember hn ..).shorter h

theorem modifiedMember_placed (hn : Lays w nested) {a : List Symbol} {m : Modifiers Extent}
    {x : RawMember} (h : modifiedMember nested kind owner a.length m s = .ok x t)
    (ha : Passed a s) (hw : a <:+ w) (hm : m.Front a.length) :
    x.Placed a.length t.length ∧ ∀ d, x = .type d → d.Laid w := by
  rw [modifiedMember, get_bind] at h
  split at h
  next =>
    obtain ⟨d, s', hd, h⟩ := bind_eq_ok_iff.1 h
    cases h
    obtain ⟨hspan, hmodifiers, hlaid⟩ := hn.laid hd ha hw hm
    refine ⟨⟨hspan, ?_⟩, ?_⟩
    · simpa [Member.modifiers?, hmodifiers] using hm
    · rintro _ ⟨⟩
      exact hlaid
  next =>
    have hfront : ∀ m' ∈ some m, m'.Front a.length := by simpa using hm
    refine (Makes.placed ?makes h hfront).imp_right fun hne d hd => absurd hd (hne d)
    refine .bind fun _ => .ite (.bind fun _ => ?rest) ?rest
    refine .bind fun _ => ?_
    split
    · exact .constructor ..
    · exact .bind fun _ => .bind fun _ => .bind fun _ => .ite (.method ..) (.field ..)

theorem member_placed (hn : Lays w nested) {x : RawMember}
    (h : member nested kind owner s = .ok x t) (hw : s <:+ w) :
    x.Placed s.length t.length ∧ ∀ d, x = .type d → d.Laid w := by
  have hplain {r : Rule RawMember} {u : List Symbol} (hr : Makes s.length none r)
      (h : r u = .ok x t) : x.Placed s.length t.length ∧ ∀ d, x = .type d → d.Laid w :=
    (hr.placed h (by simp)).imp_right fun hne d hd => absurd hd (hne d)
  rw [member, unread_bind, get_bind] at h
  split at h
  next => exact hplain (.bind fun _ => .since (f := .empty) fun _ => ⟨rfl, rfl, by simp⟩) h
  next => exact hplain (.initializer false) h
  next => exact hplain (.bind fun _ => .initializer true) h
  next =>
    obtain ⟨m, s₁, hm, h⟩ := bind_eq_ok_iff.1 h
    exact modifiedMember_placed hn h (Keeps.modifiers.passed hm) hw (modifiers_front hm)

theorem member?_eq_ok {i : Option RawMember} (h : member? nested kind owner s = .ok i t) :
    i = none ∧ t = s ∨ ∃ x, i = some x ∧ member nested kind owner s = .ok x t := by
  rw [member?, get_bind] at h
  split at h
  next =>
    cases h
    exact .inl ⟨rfl, rfl⟩
  next => cases h
  next =>
    obtain ⟨x, s', hx, h⟩ := bind_eq_ok_iff.1 h
    cases h
    exact .inr ⟨x, rfl, hx⟩

theorem many_member?_tiles (hn : Lays w nested) {xs : List RawMember}
    (h : many (member? nested kind owner) s = .ok xs t) (hw : s <:+ w) :
    Member.Tiles s.length xs t.length ∧ ∀ d, .type d ∈ xs → d.Laid w := by
  revert hw
  refine many_induction (motive := fun s xs t => s <:+ w →
    Member.Tiles s.length xs t.length ∧ ∀ d, .type d ∈ xs → d.Laid w) member?_eq_ok
    (Reads.member hn.reads).shorter (fun _ _ => ⟨.nil, by simp⟩) ?step h
  intro s x t xs u hx ih hw
  obtain ⟨hplaced, hlaid⟩ := member_placed hn hx hw
  obtain ⟨htiles, hrest⟩ := ih (((Keeps.member hn.keeps ..).passed hx).suffix.trans hw)
  refine ⟨.cons ((Reads.member hn.reads).shorter hx) hplaced htiles, fun d hd => ?_⟩
  obtain hd | hd := List.mem_cons.1 hd
  · exact hlaid d hd.symm
  · exact hrest d hd

end Members

theorem enumConstants_eq_ok {s t : List Symbol} (h : enumConstants s = .ok () t) :
    ∃ c, BalancedOver (· ≠ .mark .semicolon) c ∧
      (s = c ++ .mark .semicolon :: t ∨ s = c ++ t ∧ nextIs (.closing .curly) t) := by
  obtain ⟨_, s', hs, hrest⟩ := bind_eq_ok_iff.1 h
  obtain ⟨c, rfl, hc, hstop⟩ := balancedOver_of_skipTo (p := (· ≠ .mark .semicolon))
    (fun x s hx => by simp_all) hs
  refine ⟨c, hc, ?_⟩
  rw [get_bind] at hrest
  split at hrest
  next hnext =>
    obtain ⟨u, rfl⟩ := nextIs_iff.1 hnext
    cases hrest
    exact .inl rfl
  next hnext =>
    cases hrest
    exact .inr ⟨rfl, by simpa [hnext] using hstop⟩

section Declarations

variable {nested : Nat → Modifiers Extent → Rule RawType} {w s t : List Symbol}

theorem constantSection_of_ok {kind : TypeKind} {owner : String} {xs : List RawMember}
    {rest u : List Symbol}
    (hc : kind = .enum ∧ enumConstants s = .ok () (rest ++ .closing .curly :: u) ∨
      ¬ kind = .enum ∧ rest ++ .closing .curly :: u = s)
    (hm : many (member? nested kind owner) (rest ++ .closing .curly :: u) =
      .ok xs (.closing .curly :: u)) :
    ∃ constants, s = constants ++ (rest ++ .closing .curly :: u) ∧ Balanced constants ∧
      ConstantSection kind constants rest := by
  obtain ⟨rfl, hc⟩ | ⟨hkind, rfl⟩ := hc
  · obtain ⟨c, hb, rfl | ⟨rfl, hclose⟩⟩ := enumConstants_eq_ok hc
    · exact ⟨c ++ [.mark .semicolon], by simp, hb.balanced.append (.plain rfl .nil), .ended hb⟩
    -- Where the constants go up to the closing brace there is no first member.
    · obtain ⟨v, hv⟩ := nextIs_iff.1 hclose
      have hnone : member? nested .enum owner (rest ++ .closing .curly :: u) =
          .ok none (rest ++ .closing .curly :: u) := by
        rw [hv]
        rfl
      rw [many_nil hnone] at hm
      have hrest : rest = [] := by simpa using (EStateM.Result.ok.inj hm).2
      exact ⟨c, by simp, hb.balanced, hrest ▸ .whole hb⟩
  · exact ⟨[], rfl, .nil, .none hkind⟩

theorem typeDeclOver_laid (hn : Lays w nested) {a : List Symbol} {m : Modifiers Extent}
    {d : RawType} (h : typeDeclOver nested a.length m s = .ok d t) (ha : Passed a s)
    (hw : a <:+ w) (hm : m.Front a.length) :
    d.span = ⟨a.length, t.length⟩ ∧ d.modifiers = m ∧ d.Laid w := by
  obtain ⟨kind, name, xs, s₁, s₂, s₃, s₄, hkind, hname, hhead, hconstants, hmembers, rfl⟩ :=
    typeDeclOver_eq_ok h
  obtain ⟨head, _, rfl, _⟩ : Passed a (.opening .curly :: s₃) :=
    ha.trans <| (Keeps.typeKeyword.passed hkind).trans <|
      (Keeps.identifier.passed hname).trans ((Keeps.skipTo _).passed hhead)
  obtain ⟨rest, loose, rfl, hrest⟩ : Passed s₄ (.closing .curly :: t) :=
    (Keeps.many (.member? hn.keeps ..)).passed hmembers
  obtain ⟨constants, rfl, hbalanced, hsection⟩ := constantSection_of_ok hconstants hmembers
  have hbody : rest ++ .closing .curly :: t <:+ w := by
    refine .trans ?_ hw
    exact ⟨head ++ .opening .curly :: constants, by simp⟩
  obtain ⟨htiles, hnested⟩ := many_member?_tiles hn hmembers hbody
  refine ⟨rfl, rfl, fun e he => ?_⟩
  cases he with
  | self =>
    exact ⟨head, constants, rest, t, {
      text := hw
      matched := ⟨_, hbalanced.balancedBut.append hrest⟩
      constantSection := hsection
      span := rfl
      body := rfl
      front := hm
      tiles := htiles }⟩
  | inner hd he => exact hnested _ hd _ he

theorem typeDecl_laid (w : List Symbol) (depth : Nat) : Lays w (typeDecl depth) := by
  induction depth with
  | zero =>
    exact {
      keeps := fun _ _ => .refuse _
      reads := fun _ _ => ⟨fun h => by cases h⟩
      laid := fun h => by cases h }
  | succ depth ih =>
    exact {
      keeps := fun _ _ => ⟨fun h => (typeDecl_passed h).1⟩
      reads := fun _ _ => ⟨fun h => (typeDecl_passed h).2⟩
      laid := typeDeclOver_laid ih }

end Declarations

end Rule

end MemberOrder
