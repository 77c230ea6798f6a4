import Mathlib.Data.List.Forall2
import MemberOrder.Check
import MemberOrder.Proofs.Files.Places
/-! The files that paths stand for. Main statements: a file that is collected is a file of the world and
was named or stands below a directory that was named (`isFileIn_of_collect`), and nothing but a path that
is missing or a walk that fails keeps files from being collected (`exists_collect`). -/
namespace MemberOrder

open FileTree World

/-- A path to a file. It may be too long to be opened. -/
structure Path.IsFileIn (world : World) (p : Path) : Prop where
  ne_nil : p ≠ []
  nul : '\x00' ∉ p
  lead : ∃ s content, world.lead p = .ok s ∧ s.tree = .file content

/-- The path `q` is `p` or goes on from there with names. -/
def Path.StartsWith (p q : Path) : Prop :=
  ∃ names : List (List Char), q.components = p.components ++ names.map .name

namespace Path.StartsWith

variable {p q : Path} {n : List Char}

theorem refl (p : Path) : p.StartsWith p := ⟨[], by simp⟩

theorem of_join (hp : p ≠ []) (hn : IsName n) (h : (p.join n).StartsWith q) : p.StartsWith q := by
  obtain ⟨names, h⟩ := h
  exact ⟨n :: names, by rw [h, components_join hp hn, List.append_assoc]; rfl⟩

end Path.StartsWith

namespace Walk

variable {world : World}

theorem filesOf_cons (w : Walk) (dir : Path) (n : List Char) (t : FileTree)
    (es : List (List Char × FileTree)) : w.filesOf dir ((n, t) :: es) =
      (if w.skips (dir.join n) n (!t.isFile) then .ok [] else w.files (dir.join n) t) >>= fun here =>
        w.filesOf dir es >>= fun rest => .ok (here ++ rest) := by
  rw [filesOf]
  split <;> rfl

mutual

theorem mem_files : ∀ (t : FileTree) (w : Walk) (p : Path) (s : Spot) {found : List Path}, p ≠ [] →
    '\x00' ∉ p → world.lead p = .ok s → s.tree = t → t.Regular → w.files p t = .ok found →
    ∀ q ∈ found, q.IsFileIn world ∧ p.StartsWith q
  | .file content, w, p, s, found, hp, hnul, hlead, ht, _, h, q, hq => by
    obtain rfl := Except.ok.inj h
    obtain rfl := List.mem_singleton.1 hq
    exact ⟨⟨hp, hnul, s, content, hlead, ht⟩, .refl q⟩
  | .directory es, w, p, s, found, hp, hnul, hlead, ht, hregular, h, q, hq => by
    rw [files] at h
    split at h
    next => cases h
    next =>
      cases hregular with
      | directory names nodup inner =>
        refine mem_filesOf es _ p s hp hnul hlead (fun e he => ⟨names e he, inner e he, ?_⟩) h q hq
        rw [ht]
        exact child?_of_mem nodup he

theorem mem_filesOf : ∀ (es : List (List Char × FileTree)) (w : Walk) (p : Path) (s : Spot)
    {found : List Path}, p ≠ [] → '\x00' ∉ p → world.lead p = .ok s →
    (∀ e ∈ es, IsName e.1 ∧ e.2.Regular ∧ s.tree.child? e.1 = some e.2) →
    w.filesOf p es = .ok found → ∀ q ∈ found, q.IsFileIn world ∧ p.StartsWith q
  | [], w, p, s, found, _, _, _, _, h, q, hq => by
    obtain rfl := Except.ok.inj h
    cases hq
  | (n, t) :: es, w, p, s, found, hp, hnul, hlead, hes, h, q, hq => by
    obtain ⟨hn, hregular, ht⟩ := hes (n, t) List.mem_cons_self
    rw [filesOf_cons] at h
    obtain ⟨here, hhere, h⟩ := bind_eq_ok_iff.1 h
    obtain ⟨rest, hrest, h⟩ := bind_eq_ok_iff.1 h
    obtain rfl := Except.ok.inj h
    obtain hq | hq := List.mem_append.1 hq
    · split at hhere
      next =>
        obtain rfl := Except.ok.inj hhere
        cases hq
      next =>
        have hnul' : '\x00' ∉ p.join n := by
          intro hmem
          obtain hmem | hmem | hmem := Path.mem_join hmem
          · exact hnul hmem
          · exact absurd hmem (by decide)
          · exact hn.nul hmem
        obtain ⟨hfile, hstarts⟩ := mem_files t w (p.join n) _ (Path.join_ne_nil hp) hnul'
          (lead_join hlead hp hn ht) rfl hregular hhere q hq
        exact ⟨hfile, .of_join hp hn hstarts⟩
    · exact mem_filesOf es w p s hp hnul hlead (fun e he => hes e (List.mem_cons_of_mem _ he)) hrest q hq

end

theorem mem_filesUnder {p q : Path} {s : Spot} {found : List Path} (hroot : world.root.Regular)
    (h : filesUnder world p s = .ok found) (hp : world.find p = .ok s) (hq : q ∈ found) :
    q.IsFileIn world ∧ p.StartsWith q := by
  obtain ⟨hnul, hne, -, hlead⟩ := find_eq_ok_iff.1 hp
  unfold filesUnder at h
  dsimp only at h
  split at h
  next => exact mem_files s.tree _ p s hne hnul hlead rfl (regular_of_lead hroot hlead) h q hq
  next => cases h

end Walk

section Collect

variable {settings : Settings} {world : World} {paths files : List Path} {p q : Path}

theorem filesUnder_eq_ok_iff {s : Spot} : filesUnder settings world p s = .ok files ↔
    isStandardInput p = true ∧ files = [] ∨ isStandardInput p = false ∧
      ∃ found, Walk.filesUnder world p s = .ok found ∧ files = found.filter settings.accepts := by
  unfold filesUnder
  cases isStandardInput p <;> cases Walk.filesUnder world p s <;> simp [eq_comm]

theorem filesFor_eq_ok_iff : filesFor settings world p = .ok files ↔ ∃ s, world.find p = .ok s ∧
    (s.tree.isFile = true ∧ files = [p] ∨
      s.tree.isFile = false ∧ filesUnder settings world p s = .ok files) := by
  unfold filesFor
  cases world.find p with
  | error why => simp
  | ok s =>
    simp only [Except.ok.injEq, exists_eq_left']
    cases s.tree.isFile <;> simp [eq_comm]

theorem mem_filesFor (hroot : world.root.Regular) (h : filesFor settings world p = .ok files) (hq : q ∈ files) :
    q.IsFileIn world ∧ p.StartsWith q := by
  obtain ⟨s, hs, ⟨hfile, rfl⟩ | ⟨-, hunder⟩⟩ := filesFor_eq_ok_iff.1 h
  · obtain rfl := List.mem_singleton.1 hq
    obtain ⟨hnul, hne, -, hlead⟩ := find_eq_ok_iff.1 hs
    cases htree : s.tree with
    | file content => exact ⟨⟨hne, hnul, s, content, hlead, htree⟩, .refl q⟩
    | directory es => rw [htree] at hfile; cases hfile
  · obtain ⟨-, rfl⟩ | ⟨-, found, hfound, rfl⟩ := filesUnder_eq_ok_iff.1 hunder
    · cases hq
    · exact Walk.mem_filesUnder hroot hfound hs (List.mem_of_mem_filter hq)

theorem mapM_eq_ok_iff {ε α β : Type} {f : α → Except ε β} {xs : List α} {ys : List β} :
    xs.mapM f = .ok ys ↔ List.Forall₂ (fun x y => f x = .ok y) xs ys := by
  induction xs generalizing ys with
  | nil => simp [pure, Except.pure, eq_comm]
  | cons x xs ih =>
    rw [List.mapM_cons, bind_eq_ok_iff]
    constructor
    · rintro ⟨y, hy, h⟩
      obtain ⟨ys', hys, h⟩ := bind_eq_ok_iff.1 h
      obtain rfl := Except.ok.inj h
      exact .cons hy (ih.1 hys)
    · intro h
      cases h with
      | cons hy hys => exact ⟨_, hy, bind_eq_ok_iff.2 ⟨_, ih.2 hys, rfl⟩⟩

theorem exists_of_mem_forall₂ {α β : Type} {r : α → β → Prop} {xs : List α} {ys : List β} {y : β}
    (h : List.Forall₂ r xs ys) (hy : y ∈ ys) : ∃ x ∈ xs, r x y := by
  induction h with
  | nil => cases hy
  | cons hxy _ ih =>
    obtain rfl | hy := List.mem_cons.1 hy
    · exact ⟨_, List.mem_cons_self, hxy⟩
    · obtain ⟨x, hx, hxy⟩ := ih hy
      exact ⟨x, List.mem_cons_of_mem _ hx, hxy⟩

theorem collect_eq_ok_iff : collect settings world paths = .ok files ↔
    ∃ found, List.Forall₂ (fun p fs => filesFor settings world p = .ok fs) paths found ∧
      files = Path.sorted found.flatten := by
  unfold collect
  rw [bind_eq_ok_iff]
  simp only [mapM_eq_ok_iff]
  exact exists_congr fun found => and_congr_right fun _ => ⟨fun h => (Except.ok.inj h).symm,
    fun h => congrArg Except.ok h.symm⟩

theorem isFileIn_of_collect (hroot : world.root.Regular) (h : collect settings world paths = .ok files)
    (hq : q ∈ files) : q.IsFileIn world ∧ ∃ p ∈ paths, p.StartsWith q := by
  obtain ⟨found, hfound, rfl⟩ := collect_eq_ok_iff.1 h
  obtain ⟨fs, hfs, hq⟩ := List.mem_flatten.1 (Path.mem_of_mem_sorted hq)
  obtain ⟨p, hp, hfor⟩ := exists_of_mem_forall₂ hfound hfs
  obtain ⟨hfile, hstarts⟩ := mem_filesFor hroot hfor hq
  exact ⟨hfile, p, hp, hstarts⟩

theorem exists_find_of_collect (h : collect settings world paths = .ok files) (hp : p ∈ paths) :
    ∃ s, world.find p = .ok s := by
  obtain ⟨found, hfound, -⟩ := collect_eq_ok_iff.1 h
  obtain ⟨fs, -, hfs⟩ := exists_of_mem_forall₂ hfound.flip hp
  obtain ⟨s, hs, -⟩ := filesFor_eq_ok_iff.1 hfs
  exact ⟨s, hs⟩

theorem exists_filesFor (hexist : ∃ s, world.find p = .ok s)
    (hwalk : ∀ why, filesFor settings world p ≠ .error (.unwalkable p why)) :
    ∃ files, filesFor settings world p = .ok files := by
  obtain ⟨s, hs⟩ := hexist
  unfold filesFor filesUnder at hwalk ⊢
  simp only [hs] at hwalk ⊢
  split
  next => exact ⟨_, rfl⟩
  next hdir =>
    rw [if_neg hdir] at hwalk
    split
    next => exact ⟨_, rfl⟩
    next hinput =>
      rw [if_neg hinput] at hwalk
      split
      next => exact ⟨_, rfl⟩
      next why herror => exact absurd (by rw [herror]) (hwalk why)

theorem exists_collect (hexist : ∀ p ∈ paths, ∃ s, world.find p = .ok s)
    (hwalk : ∀ p ∈ paths, ∀ why, filesFor settings world p ≠ .error (.unwalkable p why)) :
    ∃ files, collect settings world paths = .ok files := by
  suffices h : ∃ found, List.Forall₂ (fun p fs => filesFor settings world p = .ok fs) paths found from
    h.elim fun found h => ⟨_, collect_eq_ok_iff.2 ⟨found, h, rfl⟩⟩
  induction paths with
  | nil => exact ⟨[], .nil⟩
  | cons p paths ih =>
    obtain ⟨fs, hfs⟩ := exists_filesFor (hexist p List.mem_cons_self) (hwalk p List.mem_cons_self)
    obtain ⟨found, hfound⟩ := ih (fun q hq => hexist q (List.mem_cons_of_mem _ hq))
      fun q hq => hwalk q (List.mem_cons_of_mem _ hq)
    exact ⟨fs :: found, .cons hfs hfound⟩

end Collect

end MemberOrder
