import MemberOrder.Proofs.Files.Flat
import MemberOrder.Proofs.Files.Ordered
/-! What collecting makes of paths. The first path that is neither a file nor a directory is told of. If
there is none, the files collected go up, and it is told by the paths, however they are ordered or repeated,
which files they are (`collect_components_eq`). Files collected from two lists of paths are those
collected from both in one (`collect_append`). Main statement: `collect_laws`. -/
namespace MemberOrder

open FileTree World

namespace World

def FindsFile (world : World) (p : Path) : Prop := ∃ s, world.find p = .ok s ∧ s.tree.isFile = true

def FindsDirectory (world : World) (p : Path) : Prop := ∃ s, world.find p = .ok s ∧ s.tree.isFile = false

theorem finds_iff {world : World} {p : Path} :
    world.FindsFile p ∨ world.FindsDirectory p ↔ ∃ s, world.find p = .ok s := by
  constructor
  · rintro (⟨s, hs, -⟩ | ⟨s, hs, -⟩) <;> exact ⟨s, hs⟩
  · rintro ⟨s, hs⟩
    cases hkind : s.tree.isFile with
    | true => exact .inl ⟨s, hs, hkind⟩
    | false => exact .inr ⟨s, hs, hkind⟩

end World

/-- The path `q` goes on from `p` with names, with one at least. -/
def Path.Below (p q : Path) : Prop :=
  ∃ (n : List Char) (names : List (List Char)), q.components = p.components ++ (n :: names).map .name

section Errors

variable {ε α β : Type} {f : α → Except ε β} {e : ε}

theorem bind_eq_error_iff {x : Except ε α} :
    (x >>= f) = .error e ↔ x = .error e ∨ ∃ a, x = .ok a ∧ f a = .error e := by
  cases x <;> simp [bind, Except.bind]

theorem mapM_eq_error_iff {xs : List α} : xs.mapM f = .error e ↔
    ∃ before x behind, xs = before ++ x :: behind ∧ (∀ y ∈ before, ∃ b, f y = .ok b) ∧ f x = .error e := by
  constructor
  · intro h
    induction xs with
    | nil => cases h
    | cons x xs ih =>
      rw [List.mapM_cons] at h
      obtain hx | ⟨b, hb, h⟩ := bind_eq_error_iff.1 h
      · exact ⟨[], x, xs, rfl, by simp, hx⟩
      · obtain hxs | ⟨bs, -, h⟩ := bind_eq_error_iff.1 h
        · obtain ⟨before, y, behind, rfl, hbefore, hy⟩ := ih hxs
          exact ⟨x :: before, y, behind, rfl, List.forall_mem_cons.2 ⟨⟨b, hb⟩, hbefore⟩, hy⟩
        · cases h
  · rintro ⟨before, x, behind, rfl, hbefore, hx⟩
    induction before with
    | nil =>
      rw [List.nil_append, List.mapM_cons]
      exact bind_eq_error_iff.2 (.inl hx)
    | cons y before ih =>
      obtain ⟨⟨b, hb⟩, hbefore⟩ := List.forall_mem_cons.1 hbefore
      rw [List.cons_append, List.mapM_cons]
      exact bind_eq_error_iff.2 (.inr ⟨b, hb, bind_eq_error_iff.2 (.inl (ih hbefore))⟩)

end Errors

section Given

variable {settings : Settings} {world : World} {paths paths' files files' : List Path} {p q : Path}

/-! What one path stands for. -/

theorem filesFor_of_findsFile (h : world.FindsFile p) : filesFor settings world p = .ok [p] := by
  obtain ⟨s, hs, hfile⟩ := h
  exact filesFor_eq_ok_iff.2 ⟨s, hs, .inl ⟨hfile, rfl⟩⟩

theorem filesFor_eq_missing_iff : filesFor settings world p = .error (.missing q) ↔
    q = p ∧ ¬ (world.FindsFile p ∨ world.FindsDirectory p) := by
  rw [finds_iff]
  unfold filesFor filesUnder
  cases world.find p with
  | error why => simp [eq_comm]
  | ok s =>
    refine iff_of_false (fun h => ?_) fun h => h.2 ⟨s, rfl⟩
    dsimp only at h
    split at h
    next => cases h
    split at h
    next => cases h
    split at h <;> cases h

theorem below_of_mem_filesUnder {s : Spot} {found : List Path} (hroot : world.root.Regular)
    (hs : world.find p = .ok s) (hdirectory : s.tree.isFile = false)
    (h : Walk.filesUnder world p s = .ok found) (hq : q ∈ found) : p.Below q := by
  obtain ⟨⟨-, -, s', content, hlead', hcontent⟩, names, hnames⟩ := Walk.mem_filesUnder hroot h hs hq
  cases names with
  | cons n names => exact ⟨n, names, hnames⟩
  | nil =>
    -- With the same components the file would be in the place of the directory.
    obtain ⟨hwithin, hplace⟩ := within_of_lead (find_eq_ok_iff.1 hs).2.2.2
    have heq : world.place q = world.place p := by
      unfold place
      rw [hnames, List.map_nil, List.append_nil]
    have hat := at?_place hlead' hcontent
    rw [heq, ← hplace, hwithin.at?_names] at hat
    rw [Option.some.inj hat] at hdirectory
    cases hdirectory

theorem mem_filesFor_directory (hroot : world.root.Regular) (h : world.FindsDirectory p)
    (hfiles : filesFor settings world p = .ok files) (hq : q ∈ files) : settings.accepts q ∧ p.Below q := by
  obtain ⟨s, hs, hdirectory⟩ := h
  obtain ⟨s', hs', ⟨hfile, -⟩ | ⟨-, hunder⟩⟩ := filesFor_eq_ok_iff.1 hfiles
  · obtain rfl := Except.ok.inj (hs.symm.trans hs')
    cases hdirectory.symm.trans hfile
  · obtain rfl := Except.ok.inj (hs.symm.trans hs')
    obtain ⟨-, rfl⟩ | ⟨-, found, hfound, rfl⟩ := filesUnder_eq_ok_iff.1 hunder
    · cases hq
    · obtain ⟨hmem, haccepts⟩ := List.mem_filter.1 hq
      exact ⟨haccepts, below_of_mem_filesUnder hroot hs hdirectory hfound hmem⟩

/-! What they stand for together. -/

theorem collect_eq_error_iff {why : Failure} : collect settings world paths = .error why ↔
    paths.mapM (filesFor settings world) = .error why := by
  unfold collect
  rw [bind_eq_error_iff]
  exact or_iff_left fun ⟨_, _, h⟩ => by cases h

theorem collect_eq_missing_iff
    (hwalk : ∀ p ∈ paths, ∀ why, filesFor settings world p ≠ .error (.unwalkable p why)) :
    collect settings world paths = .error (.missing p) ↔ ∃ before behind, paths = before ++ p :: behind ∧
      (∀ q ∈ before, world.FindsFile q ∨ world.FindsDirectory q) ∧
      ¬ (world.FindsFile p ∨ world.FindsDirectory p) := by
  rw [collect_eq_error_iff, mapM_eq_error_iff]
  constructor
  · rintro ⟨before, x, behind, rfl, hbefore, hx⟩
    obtain ⟨rfl, hnot⟩ := filesFor_eq_missing_iff.1 hx
    refine ⟨before, behind, rfl, fun q hq => ?_, hnot⟩
    by_contra hmissing
    obtain ⟨fs, hfs⟩ := hbefore q hq
    cases hfs.symm.trans (filesFor_eq_missing_iff.2 ⟨rfl, hmissing⟩)
  · rintro ⟨before, behind, rfl, hbefore, hnot⟩
    refine ⟨before, p, behind, rfl, fun q hq => ?_, filesFor_eq_missing_iff.2 ⟨rfl, hnot⟩⟩
    exact exists_filesFor (finds_iff.1 (hbefore q hq)) (hwalk q (List.mem_append_left _ hq))

theorem mem_components_collect (h : collect settings world paths = .ok files) {cs : List Component} :
    cs ∈ files.map Path.components ↔
      ∃ p ∈ paths, ∃ fs, filesFor settings world p = .ok fs ∧ cs ∈ fs.map Path.components := by
  obtain ⟨found, hfound, rfl⟩ := collect_eq_ok_iff.1 h
  rw [Path.mem_map_components_sorted, List.map_flatten, List.mem_flatten]
  constructor
  · rintro ⟨_, hmem, hcs⟩
    obtain ⟨fs, hfs, rfl⟩ := List.mem_map.1 hmem
    obtain ⟨p, hp, hfor⟩ := exists_of_mem_forall₂ hfound hfs
    exact ⟨p, hp, fs, hfor, hcs⟩
  · rintro ⟨p, hp, fs, hfor, hcs⟩
    obtain ⟨fs', hfs', hfor'⟩ := exists_of_mem_forall₂ hfound.flip hp
    obtain rfl := Except.ok.inj (hfor.symm.trans hfor')
    exact ⟨_, List.mem_map_of_mem hfs', hcs⟩

theorem increasing_of_collect (h : collect settings world paths = .ok files) : files.Pairwise Path.Before := by
  obtain ⟨found, -, rfl⟩ := collect_eq_ok_iff.1 h
  exact Path.sorted_before _

/-- How the files collected come from the paths given: the paths to files as they are, and what the settings
accept of what walks below the directories find. -/
structure Collected (settings : Settings) (world : World) (paths files : List Path) : Prop where
  increasing : files.Pairwise Path.Before
  given : ∀ p ∈ paths, world.FindsFile p → ∃ q ∈ files, q.components = p.components
  walked : ∀ p ∈ paths, ∀ s found, world.find p = .ok s → s.tree.isFile = false → ¬ isStandardInput p →
    Walk.filesUnder world p s = .ok found → ∀ q ∈ found, settings.accepts q →
      ∃ q' ∈ files, q'.components = q.components
  origin : ∀ q ∈ files, (∃ p ∈ paths, world.FindsFile p ∧ q.components = p.components) ∨
    settings.accepts q ∧ ∃ p ∈ paths, world.FindsDirectory p ∧ p.Below q

theorem collected_of_collect (hroot : world.root.Regular) (h : collect settings world paths = .ok files) :
    Collected settings world paths files where
  increasing := increasing_of_collect h
  given p hp hfile := List.mem_map.1 <|
    (mem_components_collect h).2 ⟨p, hp, _, filesFor_of_findsFile hfile, List.mem_singleton.2 rfl⟩
  walked p hp s found hs hdirectory hinput hfound q hq haccepts := by
    have hunder : filesUnder settings world p s = .ok (found.filter settings.accepts) :=
      filesUnder_eq_ok_iff.2 (.inr ⟨by simpa using hinput, found, hfound, rfl⟩)
    have hfor : filesFor settings world p = .ok (found.filter settings.accepts) :=
      filesFor_eq_ok_iff.2 ⟨s, hs, .inr ⟨hdirectory, hunder⟩⟩
    exact List.mem_map.1 <| (mem_components_collect h).2
      ⟨p, hp, _, hfor, List.mem_map_of_mem (List.mem_filter.2 ⟨hq, haccepts⟩)⟩
  origin q hq := by
    obtain ⟨found, hfound, rfl⟩ := collect_eq_ok_iff.1 h
    obtain ⟨fs, hfs, hq⟩ := List.mem_flatten.1 (Path.mem_of_mem_sorted hq)
    obtain ⟨p, hp, hfor⟩ := exists_of_mem_forall₂ hfound hfs
    obtain hfile | hdirectory := finds_iff.2 (exists_find_of_collect h hp)
    · obtain rfl := Except.ok.inj ((filesFor_of_findsFile hfile).symm.trans hfor)
      exact .inl ⟨p, hp, hfile, by rw [List.mem_singleton.1 hq]⟩
    · obtain ⟨haccepts, hbelow⟩ := mem_filesFor_directory hroot hdirectory hfor hq
      exact .inr ⟨haccepts, p, hp, hdirectory, hbelow⟩

theorem collect_components_eq (hsame : ∀ p, p ∈ paths' ↔ p ∈ paths)
    (h : collect settings world paths = .ok files) (h' : collect settings world paths' = .ok files') :
    files'.map Path.components = files.map Path.components := by
  refine Path.map_components_eq (increasing_of_collect h') (increasing_of_collect h) fun cs => ?_
  rw [mem_components_collect h', mem_components_collect h]
  simp only [hsame]

theorem collect_append (h : collect settings world paths = .ok files)
    (h' : collect settings world paths' = .ok files') :
    collect settings world (paths ++ paths') = .ok (Path.sorted (files ++ files')) := by
  obtain ⟨found, hfound, rfl⟩ := collect_eq_ok_iff.1 h
  obtain ⟨found', hfound', rfl⟩ := collect_eq_ok_iff.1 h'
  refine collect_eq_ok_iff.2 ⟨found ++ found', List.rel_append hfound hfound', ?_⟩
  rw [Path.sorted_append, List.flatten_append]

/-- Where no walk fails, collecting fails only if a path is neither a file nor a directory, and tells of the
first such path. Otherwise the files go up, come from the paths given, and are the same however these are
ordered or repeated; and with more paths they are those from before and those of the others, in order. -/
theorem collect_laws (hroot : world.root.Regular)
    (hwalk : ∀ p ∈ paths, ∀ why, filesFor settings world p ≠ .error (.unwalkable p why)) :
    (∀ p, collect settings world paths = .error (.missing p) ↔
      ∃ before behind, paths = before ++ p :: behind ∧
        (∀ q ∈ before, world.FindsFile q ∨ world.FindsDirectory q) ∧
        ¬ (world.FindsFile p ∨ world.FindsDirectory p)) ∧
    ((∀ p ∈ paths, world.FindsFile p ∨ world.FindsDirectory p) →
      ∃ files, collect settings world paths = .ok files ∧ Collected settings world paths files ∧
        (∀ paths', (∀ p, p ∈ paths' ↔ p ∈ paths) → ∃ files', collect settings world paths' = .ok files' ∧
          files'.map Path.components = files.map Path.components) ∧
        ∀ paths' files', collect settings world paths' = .ok files' →
          collect settings world (paths ++ paths') = .ok (Path.sorted (files ++ files')) ∧
            Path.IsUnion files files' (Path.sorted (files ++ files'))) := by
  refine ⟨fun p => collect_eq_missing_iff hwalk, fun hexist => ?_⟩
  obtain ⟨files, hfiles⟩ := exists_collect (fun p hp => finds_iff.1 (hexist p hp)) hwalk
  refine ⟨files, hfiles, collected_of_collect hroot hfiles, fun paths' hsame => ?_, fun paths' files' h' => ?_⟩
  · obtain ⟨files', hfiles'⟩ : ∃ files', collect settings world paths' = .ok files' :=
      exists_collect (fun p hp => finds_iff.1 (hexist p ((hsame p).1 hp))) fun p hp => hwalk p ((hsame p).1 hp)
    exact ⟨files', hfiles', collect_components_eq hsame hfiles hfiles'⟩
  · exact ⟨collect_append hfiles h', Path.isUnion_sorted_append files files'⟩

end Given

section Box

theorem not_unwalkable_box : ∀ p ∈ [Path.dots 0, boxName, ['x'], ['y']], ∀ why,
    filesFor .default (boxWorld .empty) p ≠ .error (.unwalkable p why) := by
  intro p hp why hwhy
  simp only [List.mem_cons, List.not_mem_nil, or_false] at hp
  obtain rfl | rfl | rfl | rfl := hp
  · cases (filesFor_boxWorld (by decide)).symm.trans hwhy
  · cases hwhy
  · cases hwhy
  · cases hwhy

/-- The directory of a file, and the file itself, with and without two paths that lead nowhere. -/
theorem collect_laws_box :
    collect .default (boxWorld .empty) [Path.dots 0, boxName, ['x'], ['y']] = .error (.missing ['x']) ∧
    ∃ files, collect .default (boxWorld .empty) [Path.dots 0, boxName] = .ok files ∧
      Collected .default (boxWorld .empty) [Path.dots 0, boxName] files ∧
      (∃ files', collect .default (boxWorld .empty) [boxName, Path.dots 0, boxName] = .ok files' ∧
        files'.map Path.components = files.map Path.components) ∧
      collect .default (boxWorld .empty) [Path.dots 0, boxName, boxName] =
        .ok (Path.sorted (files ++ [boxName])) := by
  have hdots : (boxWorld .empty).FindsDirectory (Path.dots 0) := ⟨_, find_dots (by decide), rfl⟩
  have hname : (boxWorld .empty).FindsFile boxName := ⟨_, rfl, rfl⟩
  have hmissing : ¬ ((boxWorld .empty).FindsFile ['x'] ∨ (boxWorld .empty).FindsDirectory ['x']) := by
    rintro (⟨s, hs, -⟩ | ⟨s, hs, -⟩) <;> cases hs
  have hexist : ∀ p ∈ [Path.dots 0, boxName],
      (boxWorld .empty).FindsFile p ∨ (boxWorld .empty).FindsDirectory p := by
    simp [hdots, hname]
  have hone : collect .default (boxWorld .empty) [boxName] = .ok [boxName] :=
    collect_eq_ok_iff.2 ⟨[[boxName]], .cons rfl .nil, by simp [Path.sorted, Path.sorted.dedup]⟩
  obtain ⟨hfirst, -⟩ := collect_laws regular_boxWorld not_unwalkable_box
  have hwalk : ∀ p ∈ [Path.dots 0, boxName], ∀ why,
      filesFor .default (boxWorld .empty) p ≠ .error (.unwalkable p why) :=
    fun p hp => not_unwalkable_box p (List.mem_append_left [['x'], ['y']] hp)
  obtain ⟨files, hfiles, hcollected, hsame, hmore⟩ := (collect_laws regular_boxWorld hwalk).2 hexist
  refine ⟨(hfirst _).2 ⟨[Path.dots 0, boxName], [['y']], rfl, hexist, hmissing⟩, files, hfiles, hcollected,
    hsame _ fun p => ?_, (hmore _ _ hone).1⟩
  simp only [List.mem_cons, List.not_mem_nil, or_false]
  tauto

end Box

end MemberOrder
