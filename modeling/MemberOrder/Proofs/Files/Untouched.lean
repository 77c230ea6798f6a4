import MemberOrder.Proofs.Files.Found
/-! Worlds that differ in what one file holds. If no rules about what to leave out are read from that file,
the same files are collected (`collect_untouched`), and all but that one are read alike
(`readText_untouched`). -/
namespace MemberOrder

inductive AlikeResults {ε α β : Type} (r : α → β → Prop) : Except ε α → Except ε β → Prop
  | error (e : ε) : AlikeResults r (.error e) (.error e)
  | ok {a : α} {b : β} (h : r a b) : AlikeResults r (.ok a) (.ok b)

namespace AlikeResults

variable {ε α β γ δ : Type} {r : α → β → Prop} {q : γ → δ → Prop} {x : Except ε α} {y : Except ε β}

theorem eq_or (h : AlikeResults r x y) :
    (∃ e, x = .error e ∧ y = .error e) ∨ ∃ a b, x = .ok a ∧ y = .ok b ∧ r a b := by
  cases h with
  | error e => exact .inl ⟨e, rfl, rfl⟩
  | ok h => exact .inr ⟨_, _, rfl, rfl, h⟩

theorem bind {f : α → Except ε γ} {g : β → Except ε δ} (h : AlikeResults r x y)
    (hfg : ∀ {a b}, r a b → AlikeResults q (f a) (g b)) : AlikeResults q (x >>= f) (y >>= g) := by
  cases h with
  | error e => exact .error e
  | ok h => exact hfg h

end AlikeResults

namespace FileTree

variable {target here : List (List Char)} {root root' t t' : FileTree} {n : List Char}
  {es es' : List (List Char × FileTree)}

mutual

/-- Two trees, both at the end of some names, the last first, that differ at most in what the file at
`target` holds. -/
inductive SameBut (target : List (List Char)) : List (List Char) → FileTree → FileTree → Prop
  | file {here : List (List Char)} {c c' : ByteArray} (h : here ≠ target → c = c') :
      SameBut target here (.file c) (.file c')
  | directory {here : List (List Char)} {es es' : List (List Char × FileTree)}
      (h : EntriesSameBut target here es es') : SameBut target here (.directory es) (.directory es')

inductive EntriesSameBut (target : List (List Char)) :
    List (List Char) → List (List Char × FileTree) → List (List Char × FileTree) → Prop
  | nil {here : List (List Char)} : EntriesSameBut target here [] []
  | cons {here : List (List Char)} {n : List Char} {t t' : FileTree}
      {es es' : List (List Char × FileTree)} (ht : SameBut target (n :: here) t t')
      (hes : EntriesSameBut target here es es') :
      EntriesSameBut target here ((n, t) :: es) ((n, t') :: es')

end

inductive SameFile : FileTree → FileTree → Prop
  | file (c : ByteArray) : SameFile (.file c) (.file c)
  | directory (es es' : List (List Char × FileTree)) : SameFile (.directory es) (.directory es')

theorem SameBut.sameFile (h : SameBut target here t t') (hne : here ≠ target) : SameFile t t' := by
  cases h with
  | file h => exact h hne ▸ .file _
  | directory => exact .directory _ _

theorem SameBut.isFile (h : SameBut target here t t') : t'.isFile = t.isFile := by
  cases h <;> rfl

theorem EntriesSameBut.lookup : ∀ {es es' : List (List Char × FileTree)}, EntriesSameBut target here es es' →
    Option.Rel (SameBut target (n :: here)) (es.lookup n) (es'.lookup n)
  | [], [], .nil => .none
  | (m, t) :: es, (_, t') :: es', .cons ht hes => by
    rw [List.lookup_cons, List.lookup_cons]
    split
    next heq =>
      obtain rfl := beq_iff_eq.1 heq
      exact .some ht
    next => exact hes.lookup

theorem SameBut.child? (h : SameBut target here t t') (n : List Char) :
    Option.Rel (SameBut target (n :: here)) (t.child? n) (t'.child? n) := by
  cases h with
  | file => exact .none
  | directory h => exact h.lookup

namespace Spot

/-- The directories on the way to two spots with the same names differ at most in what the file at
`target` holds. -/
inductive AboveSameBut (target : List (List Char)) :
    List (List Char) → List FileTree → List FileTree → Prop
  | nil {names : List (List Char)} : AboveSameBut target names [] []
  | cons {n : List Char} {names : List (List Char)} {t t' : FileTree} {ts ts' : List FileTree}
      (ht : SameBut target names t t') (hts : AboveSameBut target names ts ts') :
      AboveSameBut target (n :: names) (t :: ts) (t' :: ts')

structure SameBut (target : List (List Char)) (s s' : Spot) : Prop where
  names : s'.names = s.names
  tree : FileTree.SameBut target s.names s.tree s'.tree
  above : AboveSameBut target s.names s.above s'.above

theorem Within.sameBut {s s' : Spot} (h : FileTree.SameBut target [] root root') (hs : Within root s)
    (hs' : Within root' s') (hnames : s'.names = s.names) : SameBut target s s' := by
  induction hs generalizing s' with
  | top =>
    cases hs' with
    | top => exact ⟨rfl, h, .nil⟩
    | child => cases hnames
  | @child s n t hs ht ih =>
    cases hs' with
    | top => cases hnames
    | @child s' n' t' hs' ht' =>
      obtain ⟨rfl, hrest⟩ := List.cons.inj hnames
      have hup := ih hs' hrest
      have hdown := hup.tree.child? n'
      rw [ht, ht'] at hdown
      cases hdown with
      | some hdown => exact ⟨hnames, hdown, .cons hup.tree hup.above⟩

theorem SameBut.step {s s' : Spot} (h : SameBut target s s') (w : List Char) :
    AlikeResults (SameBut target) (s.step w) (s'.step w) := by
  obtain ⟨t, names, above⟩ := s
  obtain ⟨t', _, above'⟩ := s'
  obtain ⟨rfl, htree, habove⟩ := h
  dsimp only at htree habove
  have hchild := htree.child?
  unfold Spot.step
  cases htree with
  | file => exact .error _
  | directory hes =>
    dsimp only
    split
    next n hn =>
      have hchild := hchild n
      generalize (directory _).child? n = c at hchild ⊢
      generalize (directory _).child? n = c' at hchild ⊢
      cases hchild with
      | none => exact .error _
      | some hc => exact .ok ⟨rfl, hc, .cons (.directory hes) habove⟩
    next =>
      cases habove with
      | nil => exact .ok ⟨rfl, .directory hes, .nil⟩
      | cons ht hts => exact .ok ⟨rfl, ht, hts⟩
    next => exact .ok ⟨rfl, .directory hes, habove⟩

theorem SameBut.foldlM (ws : List (List Char)) {s s' : Spot} (h : SameBut target s s') :
    AlikeResults (SameBut target) (ws.foldlM Spot.step s) (ws.foldlM Spot.step s') := by
  induction ws generalizing s s' with
  | nil => exact .ok h
  | cons w ws ih =>
    rw [List.foldlM_cons, List.foldlM_cons]
    exact (h.step w).bind ih

end Spot

end FileTree

open FileTree

/-- Two worlds in which the program runs at the same place, and which differ at most in what the file at `target`
holds. -/
structure World.SameBut (target : List (List Char)) (world world' : World) : Prop where
  root : world.root.SameBut target [] world'.root
  home : world'.home.names = world.home.names

section World

variable {target : List (List Char)} {world world' : World} (h : world.SameBut target world')
include h

theorem World.SameBut.start (p : Path) : Spot.SameBut target (world.start p) (world'.start p) := by
  unfold World.start
  split
  · exact Spot.Within.top.sameBut h.root .top rfl
  · exact world.within.sameBut h.root world'.within h.home

theorem World.SameBut.find (p : Path) : AlikeResults (Spot.SameBut target) (world.find p) (world'.find p) := by
  unfold World.find
  split
  · exact .error _
  split
  · exact .error _
  split
  · exact .error _
  · exact (h.start p).foldlM _

theorem readText_untouched {p : Path} (hp : world.place p ≠ target) : world'.readText p = world.readText p := by
  unfold World.readText
  obtain ⟨e, hs, hs'⟩ | ⟨⟨t, names, above⟩, ⟨t', _, above'⟩, hs, hs', rfl, htree, -⟩ := (h.find p).eq_or
  · rw [hs, hs']
  · rw [hs, hs']
    simp only [bind, Except.bind] at htree ⊢
    cases htree with
    | directory => rfl
    | file hc =>
      obtain ⟨-, hnames⟩ := World.within_of_lead (World.find_eq_ok_iff.1 hs).2.2.2
      obtain rfl := hc fun heq => hp (hnames.symm.trans heq)
      rfl

end World

/-! Rules about what to leave out, and where they are read from. -/

namespace Repository

/-- What a file in the place of a repository's directory leads to: the file that names the place all
copies share, and the file of local rules there. -/
inductive LeadsTo (world : World) (pointing : FileTree) : Spot → Prop
  | common {line : List Char} {s : Spot} (hline : pointing.firstLine? = .ok (some line))
      (hpointer : pointer.isPrefixOf line)
      (hs : world.find (Path.join (line.drop pointer.length) commonFile) = .ok s) :
      LeadsTo world pointing s
  | exclude {line line' : List Char} {s s' : Spot} (hline : pointing.firstLine? = .ok (some line))
      (hpointer : pointer.isPrefixOf line)
      (hs : world.find (Path.join (line.drop pointer.length) commonFile) = .ok s)
      (hline' : s.tree.firstLine? = .ok (some line'))
      (hs' : world.find (((resolved (line.drop pointer.length) line').join infoEntry).join excludeEntry) =
        .ok s') : LeadsTo world pointing s'

end Repository

/-- A place of which a walk reads what to leave out. -/
inductive World.IsRuleSource (world : World) : List (List Char) → Prop
  | ignore (here : List (List Char)) : IsRuleSource world (IgnoreLevel.ignoreEntry :: here)
  | gitIgnore (here : List (List Char)) : IsRuleSource world (IgnoreLevel.gitIgnoreEntry :: here)
  | git (here : List (List Char)) : IsRuleSource world (Repository.gitEntry :: here)
  | exclude (here : List (List Char)) :
      IsRuleSource world (Repository.excludeEntry :: Repository.infoEntry :: Repository.gitEntry :: here)
  | shared {here : List (List Char)} {pointing : FileTree} {s : Spot}
      (hpointing : world.root.at? (Repository.gitEntry :: here) = some pointing)
      (hs : Repository.LeadsTo world pointing s) : IsRuleSource world s.names

theorem FileTree.SameFile.firstLine? {t t' : FileTree} (h : SameFile t t') :
    t'.firstLine? = t.firstLine? := by
  cases h <;> rfl

theorem IgnoreFile.read_sameFile {o o' : Option FileTree} (h : Option.Rel SameFile o o') :
    IgnoreFile.read o' = IgnoreFile.read o := by
  cases h with
  | none => rfl
  | some h => cases h <;> rfl

theorem IgnoreFile.read_sameBut {target here : List (List Char)} {o o' : Option FileTree}
    (h : Option.Rel (SameBut target here) o o') (hne : here ≠ target) : read o' = read o := by
  cases h with
  | none => rfl
  | some h => exact read_sameFile (.some (h.sameFile hne))

section Rules

variable {target here : List (List Char)} {world world' : World} {t t' : FileTree}
  (h : world.SameBut target world') (hsource : ¬ world.IsRuleSource target)
include h hsource

theorem Repository.sharedExclude?_untouched {pointing : FileTree}
    (hpointing : world.root.at? (gitEntry :: here) = some pointing) :
    AlikeResults (Option.Rel SameFile) (sharedExclude? world pointing) (sharedExclude? world' pointing) := by
  have hne {s : Spot} (hs : LeadsTo world pointing s) : s.names ≠ target :=
    fun heq => hsource (heq ▸ .shared hpointing hs)
  unfold sharedExclude?
  cases hline : pointing.firstLine? with
  | error e => exact .error e
  | ok line? =>
  cases line? with
  | none => exact .ok .none
  | some line =>
  simp only [bind, Except.bind]
  split
  next => exact .ok .none
  next hpointer =>
    have hpointer : pointer.isPrefixOf line := by simpa using hpointer
    obtain ⟨e, hs, hs'⟩ | ⟨s, s', hs, hs', hss⟩ :=
      (h.find (Path.join (line.drop pointer.length) commonFile)).eq_or
    · rw [hs, hs']
      exact .ok .none
    · rw [hs, hs']
      have hfile := hss.tree.sameFile (hne (.common hline hpointer hs))
      dsimp only
      rw [hfile.firstLine?]
      cases hline' : s.tree.firstLine? with
      | error e => exact .error e
      | ok line? =>
      cases line? with
      | none => exact .ok .none
      | some line' =>
        dsimp only
        obtain ⟨e, hx, hx'⟩ | ⟨x, x', hx, hx', hxx⟩ := (h.find
          (((resolved (line.drop pointer.length) line').join infoEntry).join excludeEntry)).eq_or
        · rw [hx, hx']
          exact .ok .none
        · rw [hx, hx']
          exact .ok (.some (hxx.tree.sameFile (hne (.exclude hline hpointer hs hline' hx))))

theorem Repository.exclude?_untouched (ht : SameBut target here t t') (hat : world.root.at? here = some t) :
    AlikeResults (Option.Rel SameFile) (exclude? world t) (exclude? world' t') := by
  have hpointing {c : FileTree} (hc : t.child? gitEntry = some c) : world.root.at? (gitEntry :: here) = some c := by
    rw [at?, hat, Option.bind_some, hc]
  have hgit := ht.child? gitEntry
  unfold exclude?
  generalize t.child? gitEntry = c at hgit hpointing ⊢
  generalize t'.child? gitEntry = c' at hgit ⊢
  cases hgit with
  | none => exact .ok .none
  | some hgit =>
    cases hgit with
    | file hc =>
      obtain rfl := hc fun heq => hsource (heq ▸ .git here)
      exact sharedExclude?_untouched h hsource (hpointing rfl)
    | directory hes =>
      refine .ok ?_
      have hinfo := (SameBut.directory hes).child? infoEntry
      generalize (directory _).child? infoEntry = i at hinfo ⊢
      generalize (directory _).child? infoEntry = i' at hinfo ⊢
      cases hinfo with
      | none => exact .none
      | @some i i' hinfo =>
        have hexclude := hinfo.child? excludeEntry
        simp only [Option.bind_some]
        generalize i.child? excludeEntry = x at hexclude ⊢
        generalize i'.child? excludeEntry = x' at hexclude ⊢
        cases hexclude with
        | none => exact .none
        | some hx => exact .some (hx.sameFile fun heq => hsource (heq ▸ .exclude here))

theorem IgnoreLevel.of_untouched (ht : SameBut target here t t') (hat : world.root.at? here = some t) (p : Path) :
    IgnoreLevel.of world' p t' = IgnoreLevel.of world p t := by
  have hignore := IgnoreFile.read_sameBut (ht.child? ignoreEntry) fun heq => hsource (heq ▸ .ignore here)
  have hgit := IgnoreFile.read_sameBut (ht.child? gitIgnoreEntry) fun heq => hsource (heq ▸ .gitIgnore here)
  have hsome (n : List Char) : (t'.child? n).isSome = (t.child? n).isSome := by
    have hn := ht.child? n
    generalize t.child? n = c at hn ⊢
    generalize t'.child? n = c' at hn ⊢
    cases hn <;> rfl
  have htop : Repository.isTop t' = Repository.isTop t := by
    unfold Repository.isTop
    rw [hsome, hsome]
  unfold IgnoreLevel.of
  rw [hignore, hgit, htop]
  obtain ⟨e, hx, hx'⟩ | ⟨x, x', hx, hx', hxx⟩ :=
    (Repository.exclude?_untouched h hsource ht hat).eq_or
  · rw [hx, hx']
  · rw [hx, hx']
    dsimp only
    rw [IgnoreFile.read_sameFile hxx]

theorem Walk.above_untouched {names : List (List Char)} {ts ts' : List FileTree}
    (hts : Spot.AboveSameBut target names ts ts') {t : FileTree} (hs : Spot.Within world.root ⟨t, names, ts⟩)
    (lead : List (List Char)) : above world' lead names ts' = above world lead names ts := by
  induction hts generalizing t lead with
  | @nil names => cases names <;> simp [above]
  | cons ht hts ih =>
    have hup := hs.up rfl
    rw [above, above, IgnoreLevel.of_untouched h hsource ht hup.at?_names, ih hup]

end Rules

def SameRules (target : List (List Char)) (world world' : World) : Prop :=
  ∀ {here : List (List Char)} {t t' : FileTree}, SameBut target here t t' → world.root.at? here = some t →
    ∀ p, IgnoreLevel.of world' p t' = IgnoreLevel.of world p t

section Files

variable {target : List (List Char)} {world world' : World}

namespace Walk

mutual

theorem files_untouched (hof : SameRules target world world') : ∀ (t : FileTree) (w : Walk) (p : Path)
    {t' : FileTree} {here : List (List Char)},
    w.world = world → t.Regular → world.root.at? here = some t → SameBut target here t t' →
    ({ w with world := world' } : Walk).files p t' = w.files p t
  | .file c, w, p, _, here, _, _, _, .file _ => rfl
  | .directory es, w, p, .directory es', here, hw, .directory _ nodup inner, hat, .directory hes => by
    have henter : ({ w with world := world' } : Walk).enter p (.directory es') =
        { w.enter p (.directory es) with world := world' } := by
      unfold enter
      rw [hw, ← hof (.directory hes) hat p]
    have hentries := filesOf_untouched hof es (w.enter p (.directory es)) p hw
      (fun e he => ⟨inner e he, by rw [at?, hat, Option.bind_some, child?_of_mem nodup he]⟩) hes
    rw [files, files, henter, hentries]

theorem filesOf_untouched (hof : SameRules target world world') :
    ∀ (es : List (List Char × FileTree)) (w : Walk) (p : Path)
    {es' : List (List Char × FileTree)} {here : List (List Char)}, w.world = world →
    (∀ e ∈ es, e.2.Regular ∧ world.root.at? (e.1 :: here) = some e.2) → EntriesSameBut target here es es' →
    ({ w with world := world' } : Walk).filesOf p es' = w.filesOf p es
  | [], w, p, _, here, _, _, .nil => rfl
  | (n, t) :: es, w, p, _, here, hw, hes, .cons ht hrest => by
    obtain ⟨hregular, hat⟩ := hes (n, t) List.mem_cons_self
    have hskips : ({ w with world := world' } : Walk).skips = w.skips := rfl
    rw [filesOf_cons, filesOf_cons, hskips, ht.isFile, files_untouched hof t w _ hw hregular hat ht,
      filesOf_untouched hof es w p hw (fun e he => hes e (List.mem_cons_of_mem _ he)) hrest]

end

variable (h : world.SameBut target world') (hsource : ¬ world.IsRuleSource target) (hroot : world.root.Regular)
include h hsource hroot

theorem filesUnder_untouched {s s' : Spot} (hs : Spot.Within world.root s) (hss : Spot.SameBut target s s')
    (p : Path) : filesUnder world' p s' = filesUnder world p s := by
  obtain ⟨t, names, ts⟩ := s
  obtain ⟨t', _, ts'⟩ := s'
  obtain ⟨rfl, ht, hts⟩ := hss
  unfold filesUnder startingAt
  dsimp only
  rw [above_untouched h hsource hts hs]
  split
  next =>
    exact files_untouched (IgnoreLevel.of_untouched h hsource) t ⟨world, p, [], _⟩ p rfl
      (hs.regular hroot) hs.at?_names ht
  next => rfl

end Walk

variable (h : world.SameBut target world') (hsource : ¬ world.IsRuleSource target) (hroot : world.root.Regular)
include h hsource hroot

theorem filesFor_untouched (settings : Settings) (p : Path) :
    filesFor settings world' p = filesFor settings world p := by
  unfold filesFor
  obtain ⟨e, hs, hs'⟩ | ⟨s, s', hs, hs', hss⟩ := (h.find p).eq_or
  · rw [hs, hs']
  · rw [hs, hs']
    dsimp only
    rw [hss.tree.isFile]
    have hunder : Walk.filesUnder world' p s' = Walk.filesUnder world p s := by
      obtain ⟨hwithin, -⟩ := World.within_of_lead (World.find_eq_ok_iff.1 hs).2.2.2
      exact Walk.filesUnder_untouched h hsource hroot hwithin hss p
    unfold MemberOrder.filesUnder
    rw [hunder]

theorem collect_untouched (settings : Settings) (paths : List Path) :
    collect settings world' paths = collect settings world paths := by
  have hfor : filesFor settings world' = filesFor settings world :=
    funext (filesFor_untouched h hsource hroot settings)
  unfold collect
  rw [hfor]

end Files

theorem checkFile_untouched {target : List (List Char)} {world world' : World}
    (h : world.SameBut target world') {p : Path} (hp : world.place p ≠ target) :
    checkFile world' p = checkFile world p := by
  unfold checkFile
  rw [readText_untouched h hp]

end MemberOrder
