import MemberOrder.Proofs.Declaration.Ends
import MemberOrder.Proofs.Declaration.Parts
/-! What is read of types and files around the members: the front of a type, the constants of an enum,
the items of a file. All of it is read again whatever comes behind (`Rule.Near.header`,
`Rule.enumConstants_again`, `Rule.fileItem?_again`). -/
namespace MemberOrder

namespace Rule

variable {α : Type} {s t u : List Symbol}

section Member

variable {nested : Nat → Modifiers Extent → Rule RawType} {kind : TypeKind} {owner : String}
  {x : RawMember}

theorem member?_eq_ok_iff :
    member? nested kind owner s = .ok (some x) t ↔ member nested kind owner s = .ok x t := by
  constructor
  · intro h
    obtain ⟨hnone, _⟩ | ⟨y, hy, h⟩ := member?_eq_ok h
    · cases hnone
    · rw [Option.some.inj hy]
      exact h
  · intro h
    rw [member?, get_bind]
    split
    next => cbv at h; cases h
    next => cbv at h; cases h
    next =>
      rw [bind_of_ok h]
      rfl

theorem member?_closing (u : List Symbol) :
    member? nested kind owner (.closing .curly :: u) = .ok none (.closing .curly :: u) := rfl

theorem many_member?_closing {xs : List RawMember}
    (h : many (member? nested kind owner) (.closing .curly :: u) = .ok xs t) :
    xs = [] ∧ t = .closing .curly :: u := by
  rw [many_nil (member?_closing u)] at h
  cases h
  exact ⟨rfl, rfl⟩

end Member

/-- The front of a type declaration behind its modifiers, up to the brace that opens its body. -/
def header : Rule (TypeKind × String) := do
  let kind ← typeKeyword
  let name ← identifier
  skipTo (nextIs (.opening .curly))
  return (kind, name)

theorem Near.header : Blind header :=
  .bind .typeKeyword fun _ => .bind .identifier fun _ => .bind (.skipTo (.nextIs _)) fun _ => .pure _ _

theorem typeDeclOver_eq_ok_iff {nested : Nat → Modifiers Extent → Rule RawType} {start : Nat}
    {m : Modifiers Extent} {d : RawType} : typeDeclOver nested start m s = .ok d t ↔
      ∃ kind name xs s₃ s₄, header s = .ok (kind, name) (.opening .curly :: s₃) ∧
        (kind = .enum ∧ enumConstants s₃ = .ok () s₄ ∨ ¬ kind = .enum ∧ s₄ = s₃) ∧
        many (member? nested kind name) s₄ = .ok xs (.closing .curly :: t) ∧
        d = .mk kind name m xs ⟨(Symbol.opening .curly :: s₃).length, t.length⟩ ⟨start, t.length⟩ := by
  constructor
  · intro h
    obtain ⟨kind, name, xs, s₁, s₂, s₃, s₄, hkind, hname, hskip, hconstants, hmembers, hd⟩ :=
      typeDeclOver_eq_ok h
    refine ⟨kind, name, xs, s₃, s₄, ?_, hconstants, hmembers, hd⟩
    rw [header, bind_of_ok hkind, bind_of_ok hname, bind_of_ok hskip]
    rfl
  · intro h
    obtain ⟨kind, name, xs, s₃, s₄, hheader, hconstants, hmembers, rfl⟩ := h
    obtain ⟨kind', s₁, hkind, hheader⟩ := bind_eq_ok_iff.1 hheader
    obtain ⟨name', s₂, hname, hheader⟩ := bind_eq_ok_iff.1 hheader
    obtain ⟨_, s₂', hskip, hheader⟩ := bind_eq_ok_iff.1 hheader
    cases hheader
    rw [typeDeclOver, bind_of_ok hkind, bind_of_ok hname, bind_of_ok hskip, unread_bind,
      bind_of_ok (expect_eq_ok_iff.2 rfl)]
    rw [ite_bind_of_ok (t := s₄) (fun hk => ?_) (fun hk => ?_)]
    · exact (bind_of_ok hmembers).trans (bind_of_ok (expect_eq_ok_iff.2 rfl))
    · obtain ⟨_, hc⟩ | ⟨hne, _⟩ := hconstants
      · exact hc
      · exact absurd hk hne
    · obtain ⟨he, _⟩ | ⟨_, rfl⟩ := hconstants
      · exact absurd he hk
      · rfl

theorem body_passed {depth : Nat} {kind : TypeKind} {name : String} {s₃ s₄ : List Symbol}
    {xs : List RawMember}
    (hconstants : kind = .enum ∧ enumConstants s₃ = .ok () s₄ ∨ ¬ kind = .enum ∧ s₄ = s₃)
    (hmembers : many (member? (typeDecl depth) kind name) s₄ = .ok xs (.closing .curly :: t)) :
    Passed s₃ (.closing .curly :: t) := by
  have hrest : Passed s₄ (.closing .curly :: t) :=
    (Keeps.many (.member? (fun _ _ => ⟨fun h => (typeDecl_passed h).1⟩) kind name)).passed hmembers
  obtain ⟨_, henum⟩ | ⟨_, rfl⟩ := hconstants
  · exact (Keeps.enumConstants.passed henum).trans hrest
  · exact hrest

/-- The constants of an enum end with a semicolon, or in front of a closing brace; what is behind that
does not matter. -/
theorem enumConstants_again (h : enumConstants s = .ok () t) :
    (∃ c, s = c ++ .mark .semicolon :: t ∧
      ∀ t', enumConstants (c ++ .mark .semicolon :: t') = .ok () t') ∨
    ∃ c u, t = .closing .curly :: u ∧ s = c ++ .closing .curly :: u ∧
      ∀ u', enumConstants (c ++ .closing .curly :: u') = .ok () (.closing .curly :: u') := by
  obtain ⟨_, s', hs, hrest⟩ := bind_eq_ok_iff.1 h
  have hblind : Blind (skipTo fun s => nextIs (.mark .semicolon) s || nextIs (.closing .curly) s) :=
    .skipTo (.or (.nextIs _) (.nextIs _))
  obtain ⟨c, rfl, _, hstop⟩ := balanced_of_skipTo hs
  rw [get_bind] at hrest
  split at hrest
  next hnext =>
    obtain ⟨u, rfl⟩ := nextIs_iff.1 hnext
    cases hrest
    refine .inl ⟨c, rfl, fun t' => ?_⟩
    rw [enumConstants, bind_of_ok (hblind.again .semicolon (q := []) hs t')]
    rfl
  next hnext =>
    cases hrest
    obtain ⟨u, rfl⟩ : ∃ u, t = .closing .curly :: u := nextIs_iff.1 (by simpa [hnext] using hstop)
    refine .inr ⟨c, u, rfl, rfl, fun u' => ?_⟩
    rw [enumConstants, bind_of_ok (hblind.again .closing (q := []) hs u')]
    rfl

inductive ItemStart
  | ending | semicolon | «import» | modified

def itemStart : List Symbol → ItemStart
  | [] => .ending
  | .mark .semicolon :: _ => .semicolon
  | .keyword .import :: _ => .import
  | _ => .modified

theorem seesItemStart : Sees itemStart := by
  constructor
  intro z hz u u' p
  unfold itemStart
  cases p with
  | nil => cases hz <;> rfl
  | cons x p => grind

def modifiedItem : Rule (Option FileItem) := do
  let start ← unread
  let m ← modifiers
  return some (← packageOrType start m)

def itemAt : ItemStart → Rule (Option FileItem)
  | .ending => return none
  | .semicolon => do
    expect (.mark .semicolon)
    return some .nothing
  | .import => do
    statement
    return some .nothing
  | .modified => modifiedItem

theorem fileItem?_eq (s : List Symbol) : fileItem? s = itemAt (itemStart s) s := by
  rw [fileItem?, get_bind]
  split
  · rfl
  · rfl
  · rfl
  · rw [itemStart]
    · rfl
    all_goals assumption

theorem qualifiedName_again {n : String} (h : qualifiedName s = .ok n (.mark .semicolon :: t)) :
    ∃ c, s = c ++ .mark .semicolon :: t ∧
      ∀ t', qualifiedName (c ++ .mark .semicolon :: t') = .ok n (.mark .semicolon :: t') := by
  obtain ⟨c, rfl⟩ := Near.qualifiedName.suffix_of_ok h
  exact ⟨c, rfl, Near.qualifiedName.again .semicolon (q := []) h⟩

theorem modifiedItem_again {i : FileItem} (h : modifiedItem s = .ok (some i) t) :
    (i.type? = none ∧ ∃ p, s = p ++ .mark .semicolon :: t ∧
      ∀ t', modifiedItem (p ++ .mark .semicolon :: t') = .ok (some i) t') ∨
    ∃ m s₁ d, i = .type d ∧ modifiers s = .ok m s₁ ∧ ¬ nextIs (.keyword .package) s₁ ∧
      typeDecl s₁.length s.length m s₁ = .ok d t := by
  rw [modifiedItem, unread_bind] at h
  obtain ⟨m, s₁, hm, h⟩ := bind_eq_ok_iff.1 h
  obtain ⟨i', s', hi, h⟩ := bind_eq_ok_iff.1 h
  cases h
  rw [packageOrType, get_bind] at hi
  split at hi
  next s₂ =>
    left
    rw [skip_bind] at hi
    obtain ⟨n, s₃, hn, hi⟩ := bind_eq_ok_iff.1 hi
    obtain ⟨_, s₄, hsemicolon, hi⟩ := bind_eq_ok_iff.1 hi
    cases hi
    obtain rfl := expect_eq_ok_iff.1 hsemicolon
    obtain ⟨c, rfl, hagain⟩ := qualifiedName_again hn
    obtain ⟨b, rfl⟩ := Near.modifiers.suffix_of_ok hm
    refine ⟨rfl, b ++ .keyword .package :: c, by simp, fun t' => ?_⟩
    obtain ⟨up, hup⟩ := exists_seam .semicolon t t'
    have hm' := Near.modifiers.near hup (p := b ++ .keyword .package :: c)
      (q := .keyword .package :: c) (by simpa using hm)
    rw [modifiedItem, unread_bind, bind_of_ok hm']
    have hpackage (start : Nat) (m : Modifiers Extent) :
        packageOrType start m (.keyword .package :: c ++ .mark .semicolon :: t') =
          .ok (.package n) t' := by
      rw [List.cons_append, packageOrType, get_bind]
      refine (skip_bind _ _ _).trans ?_
      rw [bind_of_ok (hagain t')]
      rfl
    exact bind_of_ok (hpackage _ _)
  next hpackage =>
    right
    obtain ⟨d, s₂, hd, hi⟩ := bind_eq_ok_iff.1 hi
    cases hi
    exact ⟨m, s₁, d, rfl, hm, fun h => (nextIs_iff.1 h).elim hpackage, hd⟩

theorem modifiedItem_of_type {m : Modifiers Extent} {s₁ : List Symbol} {d : RawType}
    (hm : modifiers s = .ok m s₁) (hpackage : ¬ nextIs (.keyword .package) s₁)
    (hd : typeDecl s₁.length s.length m s₁ = .ok d t) :
    modifiedItem s = .ok (some (.type d)) t := by
  rw [modifiedItem, unread_bind, bind_of_ok hm]
  have htype : packageOrType s.length m s₁ = .ok (.type d) t := by
    rw [packageOrType, get_bind]
    split
    next => exact absurd (nextIs_self _ _) hpackage
    next => exact bind_of_ok hd
  exact bind_of_ok htype

theorem fileItem?_again {i : FileItem} (h : fileItem? s = .ok (some i) t) :
    (i.type? = none ∧ ∃ p, s = p ++ .mark .semicolon :: t ∧
      ∀ t', fileItem? (p ++ .mark .semicolon :: t') = .ok (some i) t') ∨
    ∃ m s₁ d, i = .type d ∧ itemStart s = .modified ∧ modifiers s = .ok m s₁ ∧
      ¬ nextIs (.keyword .package) s₁ ∧ typeDecl s₁.length s.length m s₁ = .ok d t := by
  have hsame {p : List Symbol} {c : ItemStart} (hc : itemStart (p ++ .mark .semicolon :: t) = c)
      (t' : List Symbol) : fileItem? (p ++ .mark .semicolon :: t') =
        itemAt c (p ++ .mark .semicolon :: t') := by
    rw [fileItem?_eq, seesItemStart.sees .semicolon t' t p, hc]
  rw [fileItem?_eq] at h
  cases hstart : itemStart s with
  | ending =>
    rw [hstart] at h
    cases h
  | semicolon =>
    rw [hstart] at h
    obtain ⟨_, s', hs, h⟩ := bind_eq_ok_iff.1 h
    cases h
    obtain rfl := expect_eq_ok_iff.1 hs
    exact .inl ⟨rfl, [], rfl, fun _ => rfl⟩
  | «import» =>
    rw [hstart] at h
    obtain ⟨_, s', hs, h⟩ := bind_eq_ok_iff.1 h
    cases h
    obtain ⟨p, e, rfl, he, hagain⟩ := Finishes.statement.finish hs trivial
    cases he with
    | semicolon =>
      refine .inl ⟨rfl, p, rfl, fun t' => ?_⟩
      rw [hsame hstart t']
      exact bind_of_ok (hagain [] t' .semicolon)
  | modified =>
    rw [hstart] at h
    obtain ⟨hnone, p, rfl, hagain⟩ | ⟨m, s₁, d, hi, hm, hpackage, hd⟩ := modifiedItem_again h
    · exact .inl ⟨hnone, p, rfl, fun t' => (hsame hstart t').trans (hagain t')⟩
    · exact .inr ⟨m, s₁, d, hi, rfl, hm, hpackage, hd⟩

end Rule

end MemberOrder
