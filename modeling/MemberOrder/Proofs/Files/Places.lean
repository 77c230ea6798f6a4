import MemberOrder.Files.Tree
import MemberOrder.Proofs.Files.Components
/-! Places in a world. A path that leads to a file tells the place of the file by its components and the place
where the program runs (`World.at?_place`), and what stands in a directory is found behind the path of the
directory (`World.lead_join`). -/
namespace MemberOrder

theorem bind_eq_ok_iff {ε α β : Type} {x : Except ε α} {f : α → Except ε β} {b : β} :
    (x >>= f) = .ok b ↔ ∃ a, x = .ok a ∧ f a = .ok b := by
  cases x <;> simp [bind, Except.bind]

def Component.follow (names : List (List Char)) : Component → List (List Char)
  | .name n => n :: names
  | .parent => names.tail
  | .root => []
  | .current => names

/-- The names on the way from the root to where a path leads, the last first. -/
def World.place (w : World) (p : Path) : List (List Char) :=
  p.components.foldl Component.follow w.home.names

/-- What stands in front of the steps of a path only tells where it begins. -/
theorem World.place_eq (w : World) (p : Path) : w.place p = p.steps.foldl Component.follow (w.start p).names := by
  have hfront : p.front.foldl Component.follow w.home.names = (w.start p).names := by
    unfold start
    obtain ⟨hf, hroot⟩ | ⟨hf, hroot⟩ | ⟨hf, hroot⟩ := p.front_cases
    · rw [hf, if_neg hroot]
      rfl
    · rw [hf, if_neg hroot]
      rfl
    · rw [hf, if_pos hroot]
      rfl
  rw [place, Path.components_eq, List.foldl_append, hfront]

namespace FileTree

/-- A tree as it can be on a disk: in a directory there are things with names, each with another name. -/
inductive Regular : FileTree → Prop
  | file (content : ByteArray) : Regular (.file content)
  | directory {es : List (List Char × FileTree)} (names : ∀ e ∈ es, IsName e.1)
      (nodup : (es.map (·.1)).Nodup) (inner : ∀ e ∈ es, Regular e.2) : Regular (.directory es)

def at? (root : FileTree) : List (List Char) → Option FileTree
  | [] => some root
  | n :: names => (root.at? names).bind (·.child? n)

variable {root t : FileTree} {n : List Char} {es : List (List Char × FileTree)}

theorem child?_of_mem (hes : (es.map (·.1)).Nodup) (h : (n, t) ∈ es) :
    (directory es).child? n = some t := by
  induction es with
  | nil => cases h
  | cons e es ih =>
    rw [List.map_cons, List.nodup_cons] at hes
    change (e :: es).lookup n = some t
    obtain rfl | h := List.mem_cons.1 h
    · exact List.lookup_cons_self
    · have hne : (n == e.1) = false := by
        rw [beq_eq_false_iff_ne]
        rintro rfl
        exact hes.1 (List.mem_map.2 ⟨_, h, rfl⟩)
      rw [List.lookup_cons, hne]
      exact ih hes.2 h

theorem mem_of_child? (h : (directory es).child? n = some t) : (n, t) ∈ es := by
  change es.lookup n = some t at h
  induction es with
  | nil => cases h
  | cons e es ih =>
    rw [List.lookup_cons] at h
    split at h
    next heq =>
      obtain rfl := beq_iff_eq.1 heq
      exact List.mem_cons.2 (.inl (by rw [← Option.some.inj h]))
    next => exact List.mem_cons_of_mem _ (ih h)

theorem exists_of_child? (h : t.child? n = some root) : ∃ es, t = directory es ∧ (n, root) ∈ es := by
  cases t with
  | file content => cases h
  | directory es => exact ⟨es, rfl, mem_of_child? h⟩

theorem Regular.child? (ht : t.Regular) (h : t.child? n = some root) : root.Regular := by
  obtain ⟨es, rfl, hmem⟩ := exists_of_child? h
  cases ht with
  | directory _ _ inner => exact inner _ hmem

end FileTree

open FileTree

namespace Component

theorem inner?_eq {w : List Char} {c : Component} (h : inner? w = some c) :
    c = .parent ∨ ∃ n, c = .name n := by
  unfold inner? at h
  split at h
  · cases h
  · cases h
  · exact .inl (Option.some.inj h).symm
  · exact .inr ⟨_, (Option.some.inj h).symm⟩

end Component

namespace FileTree.Spot

variable {root : FileTree} {s s' : Spot} {w : List Char}

inductive Steps (s : Spot) (w : List Char) : Spot → Prop
  | stay (h : Component.inner? w = none) : Steps s w s
  | up {t ts} (h : Component.inner? w = some .parent) (ha : s.above = t :: ts) :
      Steps s w ⟨t, s.names.tail, ts⟩
  | atTop (h : Component.inner? w = some .parent) (ha : s.above = []) : Steps s w s
  | down {n t} (h : Component.inner? w = some (.name n)) (ht : s.tree.child? n = some t) :
      Steps s w ⟨t, n :: s.names, s.tree :: s.above⟩

theorem steps_of_step (h : s.step w = .ok s') : Steps s w s' := by
  unfold step at h
  split at h
  next => cases h
  next es hes =>
    split at h
    next n hn =>
      split at h
      next t ht => exact Except.ok.inj h ▸ .down hn ht
      next => cases h
    next hparent =>
      split at h
      next t ts ha => exact Except.ok.inj h ▸ .up hparent ha
      next ha => exact Except.ok.inj h ▸ .atTop hparent ha
    next hname hparent =>
      obtain rfl := Except.ok.inj h
      cases hw : Component.inner? w with
      | none => exact .stay hw
      | some c =>
        obtain rfl | ⟨n, rfl⟩ := Component.inner?_eq hw
        · exact absurd hw hparent
        · exact absurd hw (hname n)

theorem step_name {n : List Char} {t : FileTree} (hn : Component.inner? n = some (.name n))
    (ht : s.tree.child? n = some t) : s.step n = .ok ⟨t, n :: s.names, s.tree :: s.above⟩ := by
  obtain ⟨es, hes, -⟩ := exists_of_child? ht
  unfold step
  rw [hes] at ht ⊢
  simp only [hn, ht]

theorem Within.at?_names (h : Within root s) : root.at? s.names = some s.tree := by
  induction h with
  | top => rfl
  | child _ ht ih => rw [FileTree.at?, ih, Option.bind_some, ht]

theorem Within.regular (h : Within root s) (hroot : root.Regular) : s.tree.Regular := by
  induction h with
  | top => exact hroot
  | child _ ht ih => exact ih.child? ht

theorem Within.up {t : FileTree} {ts : List FileTree} (h : Within root s) (ha : s.above = t :: ts) :
    Within root ⟨t, s.names.tail, ts⟩ := by
  cases h with
  | top => cases ha
  | child hs _ =>
    obtain ⟨rfl, rfl⟩ := List.cons.inj ha
    exact hs

theorem Within.names_eq_nil (h : Within root s) (ha : s.above = []) : s.names = [] := by
  cases h with
  | top => rfl
  | child _ _ => cases ha

theorem Within.of_foldlM {ws : List (List Char)} (hs : Within root s) (h : ws.foldlM step s = .ok s') :
    Within root s' ∧ s'.names = (ws.filterMap Component.inner?).foldl Component.follow s.names := by
  induction ws generalizing s with
  | nil =>
    obtain rfl := Except.ok.inj h
    exact ⟨hs, rfl⟩
  | cons w ws ih =>
    rw [List.foldlM_cons] at h
    obtain ⟨s₁, hstep, h⟩ := bind_eq_ok_iff.1 h
    cases steps_of_step hstep with
    | stay hw => rw [List.filterMap_cons_none hw]; exact ih hs h
    | up hw ha => rw [List.filterMap_cons_some hw]; exact ih (hs.up ha) h
    | atTop hw ha =>
      have hnames := hs.names_eq_nil ha
      rw [List.filterMap_cons_some hw, List.foldl_cons, hnames]
      have hrest := ih hs h
      rwa [hnames] at hrest
    | down hw ht => rw [List.filterMap_cons_some hw]; exact ih (hs.child ht) h

end FileTree.Spot

namespace World

variable {world : World} {s : Spot} {p : Path} {content : ByteArray}

def lead (w : World) (p : Path) : Except ReadError Spot :=
  (segments p).foldlM Spot.step (w.start p)

theorem within_start (w : World) (p : Path) : (w.start p).Within w.root := by
  unfold start
  split
  · exact .top
  · exact w.within

theorem within_of_lead (h : world.lead p = .ok s) : s.Within world.root ∧ s.names = world.place p := by
  rw [place_eq]
  exact (world.within_start p).of_foldlM h

theorem at?_place (h : world.lead p = .ok s) (hf : s.tree = .file content) :
    world.root.at? (world.place p) = some (.file content) := by
  obtain ⟨hs, hnames⟩ := within_of_lead h
  rw [← hnames, hs.at?_names, hf]

theorem regular_of_lead (hroot : world.root.Regular) (h : world.lead p = .ok s) : s.tree.Regular :=
  (within_of_lead h).1.regular hroot

theorem lead_join {n : List Char} {t : FileTree} (h : world.lead p = .ok s) (hp : p ≠ [])
    (hn : IsName n) (ht : s.tree.child? n = some t) :
    world.lead (p.join n) = .ok ⟨t, n :: s.names, s.tree :: s.above⟩ := by
  obtain ⟨ws, -, hjoin, hsegments⟩ := Path.segments_join hp hn.slash
  have hstart : world.start (p.join n) = world.start p := by
    unfold start
    rw [Path.head?_join hp]
  unfold lead at h ⊢
  rw [hstart, hjoin, List.foldlM_append]
  have hws : ws.foldlM Spot.step (world.start p) = .ok s := by
    obtain hws | hws := hsegments
    · rwa [hws] at h
    · rw [hws, List.foldlM_append] at h
      obtain ⟨s₁, hws, hlast⟩ := bind_eq_ok_iff.1 h
      rw [List.foldlM_cons] at hlast
      obtain ⟨s₂, hstep, hlast⟩ := bind_eq_ok_iff.1 hlast
      obtain rfl := Except.ok.inj hlast
      cases Spot.steps_of_step hstep with
      | stay => exact hws
      | up hw | atTop hw | down hw => cases hw
  refine bind_eq_ok_iff.2 ⟨s, hws, ?_⟩
  rw [List.foldlM_cons]
  exact bind_eq_ok_iff.2 ⟨_, Spot.step_name hn.inner ht, rfl⟩

theorem find_eq_ok_iff : world.find p = .ok s ↔
    '\x00' ∉ p ∧ p ≠ [] ∧ byteCount p ≤ pathLimit ∧ world.lead p = .ok s := by
  unfold find
  by_cases hnul : '\x00' ∈ p
  · simp [hnul]
  by_cases hp : p = []
  · simp [hp]
  by_cases hlimit : pathLimit < byteCount p
  · simp [hnul, hp, hlimit, Nat.not_le_of_lt hlimit]
  · simp [hnul, hp, hlimit, lead, Nat.le_of_not_lt hlimit]

theorem readText_of_lead (hnul : '\x00' ∉ p) (hp : p ≠ []) (h : world.lead p = .ok s)
    (hf : s.tree = .file content) : world.readText p =
      if pathLimit < byteCount p then .error .nameTooLong
      else match String.fromUTF8? content with
        | some text => .ok text
        | none => .error .notText := by
  unfold readText
  split
  next hlimit =>
    have herror : world.find p = .error .nameTooLong := by simp [find, hnul, hp, hlimit]
    rw [herror]
    rfl
  next hlimit =>
    rw [find_eq_ok_iff.2 ⟨hnul, hp, Nat.le_of_not_lt hlimit, h⟩]
    simp only [bind, Except.bind, hf]
    generalize String.fromUTF8? content = text?
    cases text? <;> rfl

end World

end MemberOrder
