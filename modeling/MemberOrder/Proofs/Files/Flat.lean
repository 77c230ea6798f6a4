import MemberOrder.Proofs.Files.Untouched
/-! Worlds in which there are only files that are not hidden, in the directory in which the program runs. They have
no rules about what to leave out, so that a walk finds all that is there (`Walk.filesUnder_flat`), also by a path
that goes a long way to where it started (`filesFor_dots`). -/
namespace MemberOrder

open FileTree World

def Visible (es : List (List Char × FileTree)) : Prop := ∀ e ∈ es, e.1.head? ≠ some '.'

/-- Entries of a directory that are files and not hidden. -/
structure Flat (es : List (List Char × FileTree)) : Prop where
  isFile : ∀ e ∈ es, e.2.isFile = true
  visible : Visible es

def World.holding (es : List (List Char × FileTree)) : World := .around (.directory es)

theorem visible_home (t : FileTree) : Visible [(homeName, t)] := by
  intro e he
  obtain rfl := List.mem_singleton.1 he
  exact nofun

/-- A level without rules. -/
structure IgnoreLevel.Silent (l : IgnoreLevel) : Prop where
  ignore : l.ignore = []
  git : l.git = []
  exclude : l.exclude = []

section Rules

variable {es : List (List Char × FileTree)} {levels : List (IgnoreLevel × Path)} {n m : List Char}
  {here : List (List Char)} {t : FileTree}

theorem Verdict.first_eq_silent {vs : List Verdict} (h : ∀ v ∈ vs, v = .silent) : first vs = .silent := by
  induction vs with
  | nil => rfl
  | cons v vs ih =>
    obtain rfl := h v List.mem_cons_self
    exact ih fun v hv => h v (List.mem_cons_of_mem _ hv)

namespace IgnoreLevel

theorem mem_of_mem_withinRepository {l : IgnoreLevel × Path} (h : l ∈ withinRepository levels) :
    l ∈ levels := by
  induction levels with
  | nil => cases h
  | cons k ls ih =>
    rw [withinRepository] at h
    split at h
    · exact List.mem_singleton.1 h ▸ List.mem_cons_self
    · obtain rfl | h := List.mem_cons.1 h
      · exact List.mem_cons_self
      · exact List.mem_cons_of_mem _ (ih h)

theorem verdict_of_silent (h : ∀ l ∈ levels, l.1.Silent) (isDirectory : Bool) :
    verdict levels isDirectory = .silent := by
  have hnone (rules : IgnoreLevel → List IgnoreRule) (hrules : ∀ l ∈ levels, rules l.1 = [])
      (ls : List (IgnoreLevel × Path)) (hls : ∀ l ∈ ls, l ∈ levels) :
      Verdict.first (ls.map fun l => IgnoreRule.verdict (rules l.1) l.2 isDirectory) = .silent := by
    refine Verdict.first_eq_silent fun v hv => ?_
    obtain ⟨l, hl, rfl⟩ := List.mem_map.1 hv
    rw [hrules l (hls l hl)]
    rfl
  have hnear : ∀ l ∈ (if levels.any (·.1.isRepository) then withinRepository levels else []), l ∈ levels := by
    split
    · exact fun l => mem_of_mem_withinRepository
    · simp
  unfold verdict
  dsimp only
  rw [hnone ignore (fun l hl => (h l hl).ignore) levels fun _ => id,
    hnone git (fun l hl => (h l hl).git) _ hnear, hnone exclude (fun l hl => (h l hl).exclude) _ hnear]
  rfl

end IgnoreLevel

theorem Visible.child?_hidden (h : Visible es) (hn : n.head? = some '.') : (directory es).child? n = none := by
  cases hc : (directory es).child? n with
  | none => rfl
  | some t => exact absurd hn (h _ (mem_of_child? hc))

theorem at?_home (h : (World.holding es).root.at? [n] = some t) : t = .directory es := by
  have hmem : (n, t) ∈ [(homeName, directory es)] := mem_of_child? h
  exact (Prod.mk.inj (List.mem_singleton.1 hmem)).2

theorem Flat.isFile_of_at? (h : Flat es) (ht : (World.holding es).root.at? (n :: m :: here) = some t) :
    t.isFile = true := by
  induction here generalizing n m t with
  | nil =>
    obtain ⟨u, hu, ht⟩ := Option.bind_eq_some_iff.1 ht
    obtain rfl := at?_home hu
    exact h.isFile _ (mem_of_child? ht)
  | cons k here ih =>
    obtain ⟨u, hu, ht⟩ := Option.bind_eq_some_iff.1 ht
    obtain ⟨es', rfl, -⟩ := exists_of_child? ht
    cases ih hu

theorem Flat.at?_hidden (h : Flat es) (hn : n.head? = some '.') :
    (World.holding es).root.at? (n :: here) = none := by
  cases hat : (World.holding es).root.at? (n :: here) with
  | none => rfl
  | some t =>
    obtain ⟨u, hu, ht⟩ := Option.bind_eq_some_iff.1 hat
    match here, hu with
    | [], hu =>
      obtain rfl := Option.some.inj hu
      cases ht.symm.trans ((visible_home (.directory es)).child?_hidden hn)
    | [m], hu =>
      obtain rfl := at?_home hu
      cases ht.symm.trans (h.visible.child?_hidden hn)
    | m :: k :: here, hu =>
      obtain ⟨es', rfl, -⟩ := exists_of_child? ht
      cases h.isFile_of_at? hu

theorem Flat.not_isRuleSource (h : Flat es) (hn : n.head? ≠ some '.') :
    ¬ (World.holding es).IsRuleSource [n, homeName] := by
  intro hsource
  generalize hnames : [n, homeName] = names at hsource
  cases hsource with
  | ignore | gitIgnore | git =>
    obtain ⟨rfl, -⟩ := List.cons.inj hnames
    exact hn rfl
  | exclude =>
    obtain ⟨-, hrest⟩ := List.cons.inj (List.cons.inj hnames).2
    cases hrest
  | shared hpointing => cases hpointing.symm.trans (h.at?_hidden rfl)

theorem Visible.silent (h : Visible es) (world : World) (p : Path) :
    (IgnoreLevel.of world p (.directory es)).Silent ∧ (IgnoreLevel.of world p (.directory es)).isSound := by
  unfold IgnoreLevel.of Repository.exclude?
  rw [h.child?_hidden rfl, h.child?_hidden rfl, h.child?_hidden rfl]
  exact ⟨⟨rfl, rfl, rfl⟩, rfl⟩

end Rules

namespace Walk

variable {es : List (List Char × FileTree)} {w : Walk}

theorem skips_of_silent (hinner : ∀ l ∈ w.inner, l.Silent) (houter : ∀ l ∈ w.outer, l.1.Silent) (p : Path)
    (name : List Char) (isDirectory : Bool) :
    w.skips p name isDirectory = decide (name.head? = some '.') := by
  have hverdict : w.verdict p isDirectory = .silent := by
    refine IgnoreLevel.verdict_of_silent (fun l hl => ?_) isDirectory
    obtain hl | hl := List.mem_append.1 hl
    · obtain ⟨k, hk, rfl⟩ := List.mem_map.1 hl
      exact hinner k hk
    · obtain ⟨k, hk, rfl⟩ := List.mem_map.1 hl
      exact houter k hk
  unfold skips
  rw [hverdict]

theorem filesOf_flat (hinner : ∀ l ∈ w.inner, l.Silent) (houter : ∀ l ∈ w.outer, l.1.Silent) (h : Flat es)
    (dir : Path) : w.filesOf dir es = .ok (es.map fun e => dir.join e.1) := by
  induction es with
  | nil => rfl
  | cons e es ih =>
    obtain ⟨n, t⟩ := e
    have hrest : Flat es := ⟨fun e he => h.isFile e (List.mem_cons_of_mem _ he),
      fun e he => h.visible e (List.mem_cons_of_mem _ he)⟩
    have hskips : w.skips (dir.join n) n (!t.isFile) = false := by
      rw [skips_of_silent hinner houter]
      simpa using h.visible _ List.mem_cons_self
    have hfile := h.isFile _ List.mem_cons_self
    rw [filesOf_cons, hskips, ih hrest]
    cases t with
    | file c => rfl
    | directory es => cases hfile

theorem filesUnder_flat (h : Flat es) {p : Path} (hp : byteCount p ≤ pathLimit) :
    filesUnder (.holding es) p (World.holding es).home = .ok (es.map fun e => p.join e.1) := by
  obtain ⟨hroot, hsound⟩ := (visible_home (.directory es)).silent (.holding es) []
  have houter : (startingAt (.holding es) p (World.holding es).home).outer =
      [(.of (.holding es) [] (.directory [(homeName, .directory es)]), homeName)] := rfl
  have htree : (World.holding es).home.tree = .directory es := rfl
  unfold filesUnder
  dsimp only
  rw [houter, if_pos (by simpa using hsound), htree, files, if_neg (Nat.not_lt_of_le hp)]
  refine filesOf_flat (fun l hl => ?_) (fun l hl => ?_) h p
  · obtain rfl := List.mem_singleton.1 hl
    exact (h.visible.silent (.holding es) p).1
  · change l ∈ (startingAt (.holding es) p (World.holding es).home).outer at hl
    rw [houter] at hl
    obtain rfl := List.mem_singleton.1 hl
    exact hroot

end Walk

/-! A long way to stay where one is. -/

namespace Path

def dots : Nat → Path
  | 0 => ['.']
  | n + 1 => '.' :: '/' :: dots n

theorem dots_ne_nil (n : Nat) : dots n ≠ [] := by
  cases n <;> simp [dots]

theorem head?_dots (n : Nat) : (dots n).head? = some '.' := by
  cases n <;> rfl

theorem nul_dots (n : Nat) : '\x00' ∉ dots n := by
  induction n with
  | zero => decide
  | succ n ih => simpa [dots] using ih

theorem segments_dots (n : Nat) : segments (dots n) = List.replicate (n + 1) ['.'] := by
  induction n with
  | zero => rfl
  | succ n ih => simp [dots, segments, ih, List.replicate_succ]

theorem byteCount_dots (n : Nat) : byteCount (dots n) = 2 * n + 1 := by
  induction n with
  | zero => rfl
  | succ n ih =>
    have hone : '.'.utf8Size = 1 ∧ '/'.utf8Size = 1 := by decide
    simp only [dots, byteCount, ih, hone]
    omega

theorem components_dots (n : Nat) : (dots n).components = [.current] := by
  have hnone : Component.inner? ['.'] = none := rfl
  simp [components, segments_dots, List.replicate_succ, hnone]

end Path

section Dots

variable {es : List (List Char × FileTree)} {n : Nat}

theorem World.lead_dots (n : Nat) : (World.holding es).lead (Path.dots n) = .ok (World.holding es).home := by
  have hstart : (World.holding es).start (Path.dots n) = (World.holding es).home := by
    unfold start
    rw [Path.head?_dots, if_neg (by decide)]
  have hstay (k : Nat) : (List.replicate k ['.']).foldlM Spot.step (World.holding es).home =
      .ok (World.holding es).home := by
    induction k with
    | zero => rfl
    | succ k ih =>
      rw [List.replicate_succ, List.foldlM_cons]
      exact ih
  rw [lead, hstart, Path.segments_dots, hstay]

theorem World.find_dots (h : 2 * n + 1 ≤ pathLimit) :
    (World.holding es).find (Path.dots n) = .ok (World.holding es).home :=
  find_eq_ok_iff.2 ⟨Path.nul_dots n, Path.dots_ne_nil n, Path.byteCount_dots n ▸ h, lead_dots n⟩

theorem filesFor_dots (hes : Flat es) (h : 2 * n + 1 ≤ pathLimit) (settings : Settings) :
    filesFor settings (.holding es) (Path.dots n) =
      .ok ((es.map fun e => (Path.dots n).join e.1).filter settings.accepts) := by
  have hinput : isStandardInput (Path.dots n) = false := by
    simp [isStandardInput, Path.components_dots]
  unfold filesFor filesUnder
  rw [find_dots h]
  simp only [hinput, Walk.filesUnder_flat hes (Path.byteCount_dots n ▸ h)]
  rfl

theorem given_dots (hes : Flat es) (h : 2 * n + 1 ≤ pathLimit) (settings : Settings) :
    (∀ p ∈ [Path.dots n], ∃ s, (World.holding es).find p = .ok s) ∧
      ∀ p ∈ [Path.dots n], ∀ why, filesFor settings (.holding es) p ≠ .error (.unwalkable p why) := by
  refine ⟨fun p hp => ?_, fun p hp why hwhy => ?_⟩
  · obtain rfl := List.mem_singleton.1 hp
    exact ⟨_, find_dots h⟩
  · obtain rfl := List.mem_singleton.1 hp
    cases (filesFor_dots hes h settings).symm.trans hwhy

end Dots

theorem Path.byteCount_join_ge (dir : Path) (n : List Char) :
    byteCount dir + byteCount n ≤ byteCount (dir.join n) := by
  unfold join
  split
  · exact Nat.le_of_eq (byteCount_append dir n).symm
  · rw [byteCount_append, byteCount]
    omega

theorem World.regular_holding {es : List (List Char × FileTree)} (hnames : ∀ e ∈ es, IsName e.1)
    (hnodup : (es.map (·.1)).Nodup) (hinner : ∀ e ∈ es, e.2.Regular) : (World.holding es).root.Regular := by
  have hhome : IsName homeName := ⟨by decide, by decide, by decide⟩
  have hone (e : List Char × FileTree) (he : e ∈ [(homeName, directory es)]) : IsName e.1 ∧ e.2.Regular := by
    obtain rfl := List.mem_singleton.1 he
    exact ⟨hhome, .directory hnames hnodup hinner⟩
  exact .directory (fun e he => (hone e he).1) (by simp) fun e he => (hone e he).2

/-! A world of one file. -/

def boxName : Path := ['B', 'o', 'x', '.', 'j', 'a', 'v', 'a']

def boxWorld (content : ByteArray) : World := .holding [(boxName, .file content)]

theorem isName_boxName : IsName boxName := ⟨by decide, by decide, by decide⟩

section BoxWorld

variable {content : ByteArray} {n : Nat}

theorem regular_boxWorld : (boxWorld content).root.Regular :=
  regular_holding (by simp [isName_boxName]) (by simp) (by simp [Regular.file])

theorem flat_boxWorld : Flat [(boxName, .file content)] := ⟨by simp [isFile], by simp [Visible, boxName]⟩

theorem filesFor_boxWorld (h : 2 * n + 1 ≤ pathLimit) :
    filesFor .default (boxWorld content) (Path.dots n) = .ok [(Path.dots n).join boxName] := by
  have haccepts : Settings.default.accepts ((Path.dots n).join boxName) = true := by
    unfold Settings.accepts Path.extension? Path.fileName?
    rw [Path.components_join (Path.dots_ne_nil n) isName_boxName, Path.components_dots]
    decide
  unfold boxWorld
  rw [filesFor_dots flat_boxWorld h]
  simp [haccepts]

theorem collect_boxWorld (h : 2 * n + 1 ≤ pathLimit) :
    collect .default (boxWorld content) [Path.dots n] = .ok [(Path.dots n).join boxName] := by
  refine collect_eq_ok_iff.2 ⟨_, .cons (filesFor_boxWorld h) .nil, ?_⟩
  simp [Path.sorted, Path.sorted.dedup]

theorem isFileIn_boxWorld (n : Nat) : ((Path.dots n).join boxName).IsFileIn (boxWorld content) where
  ne_nil := Path.join_ne_nil (Path.dots_ne_nil n)
  nul hmem := by
    obtain hmem | hmem | hmem := Path.mem_join hmem
    · exact Path.nul_dots n hmem
    · exact absurd hmem (by decide)
    · exact isName_boxName.nul hmem
  lead := ⟨_, _, lead_join (lead_dots n) (Path.dots_ne_nil n) isName_boxName rfl, rfl⟩

theorem components_dots_join (n : Nat) :
    ((Path.dots n).join boxName).components = [.current, .name boxName] := by
  rw [Path.components_join (Path.dots_ne_nil n) isName_boxName, Path.components_dots]
  rfl

theorem place_dots_join (n : Nat) :
    (boxWorld content).place ((Path.dots n).join boxName) = [boxName, homeName] := by
  unfold World.place
  rw [components_dots_join]
  rfl

end BoxWorld

end MemberOrder
