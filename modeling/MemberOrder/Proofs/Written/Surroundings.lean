import MemberOrder.Proofs.Declaration.Bodies
import MemberOrder.Proofs.Written.RoundTrip
/-! What stands around a member in a file: other members, the types it is nested in, and what else is
in the file. A member that is read, or refused, wherever it stands is read or refused in all of them
(`Surroundings.parse_answers`). -/
namespace MemberOrder.Written

open Rule

section Answers

variable {α : Type}

/-- A rule that accepts leaves `t` and answers something good; one that does not refuses. -/
structure Answers (accepts : Bool) (o : Outcome α) (t : List Symbol) (good : α → Prop) :
    Prop where
  accepted (h : accepts = true) : ∃ a, o = .ok a t ∧ good a
  refused (h : accepts = false) : ∃ e u, o = .error e u

theorem Answers.bind {β : Type} {b : Bool} {x : Rule α} {f : α → Rule β} {s t u : List Symbol}
    {good : α → Prop} {good' : β → Prop} (h : Answers b (x s) t good)
    (hf : ∀ a, good a → ∃ c, f a t = .ok c u ∧ good' c) : Answers b ((x >>= f) s) u good' := by
  refine ⟨fun hb => ?_, fun hb => ?_⟩
  · obtain ⟨a, ha, hgood⟩ := h.accepted hb
    rw [bind_of_ok ha]
    exact hf a hgood
  · obtain ⟨e, v, he⟩ := h.refused hb
    exact ⟨e, v, bind_of_error he⟩

theorem Answers.chain {b : Bool} {item : Rule (Option α)} {s t u : List Symbol}
    {as : List α} {good : List α → Prop} (h : Answers b (many item t) u good)
    (has : Chain item s as t) :
    Answers b (many item s) u fun xs => ∃ ys, xs = as ++ ys ∧ good ys := by
  have hmany := has.many_eq
  refine ⟨fun hb => ?_, fun hb => ?_⟩
  · obtain ⟨ys, hys, hgood⟩ := h.accepted hb
    rw [hys] at hmany
    exact ⟨_, hmany, ys, rfl, hgood⟩
  · obtain ⟨e, v, he⟩ := h.refused hb
    rw [he] at hmany
    exact ⟨e, v, hmany⟩

theorem Answers.first {b : Bool} {item : Rule (Option α)} {s t u : List Symbol} {as : List α}
    {good : α → Prop} (h : Answers b (item s) t fun o => ∃ a, o = some a ∧ good a)
    (hlt : t.length < s.length) (has : many item t = .ok as u) :
    Answers b (many item s) u fun xs => ∃ a, xs = a :: as ∧ good a := by
  refine ⟨fun hb => ?_, fun hb => ?_⟩
  · obtain ⟨_, ha, a, rfl, hgood⟩ := h.accepted hb
    exact ⟨a :: as, many_cons ha hlt has, a, rfl, hgood⟩
  · obtain ⟨e, v, he⟩ := h.refused hb
    exact ⟨e, v, by rw [many, he]⟩

end Answers

def Stretch.nil {stops : List Symbol} : Stretch stops :=
  ⟨[], .nil⟩

/-- A type declaration with a gap among its members. -/
structure Level where
  kind : Kind
  name : Name
  modifiers : List Modifier
  header : Stretch [.opening .curly]
  before : List Member
  after : List Member

/-- A file with a gap among the members of a type. Of the types around the gap the innermost is listed
first, and `outermost` holds them all. -/
structure Surroundings where
  front : File
  nested : List Level
  outermost : Level
  after : List TypeDecl

/-! The tokens. -/

namespace Level

def body (l : Level) (gap : List Lexeme) : List Lexeme :=
  Member.allLexemes l.name l.before ++ (gap ++ Member.allLexemes l.name l.after)

def tail (l : Level) (gap : List Lexeme) : List Lexeme :=
  l.kind.lexemes ++ l.name.lexeme :: (l.header.lexemes ++ .opening .curly ::
    (l.kind.constants false ++ (l.body gap ++ [.closing .curly])))

def lexemes (l : Level) (gap : List Lexeme) : List Lexeme :=
  l.modifiers.flatMap Modifier.lexemes ++ l.tail gap

end Level

def Surroundings.lexemes (c : Surroundings) (gap : List Lexeme) : List Lexeme :=
  c.front.lexemes ++ (c.outermost.lexemes (c.nested.foldl (fun gap l => l.lexemes gap) gap) ++
    c.after.flatMap TypeDecl.lexemes)

/-! The tree to be read, without the text of types. -/

def outlines (owner : Name) (ms : List Member) : List (MemberOrder.Member Unit Unit) :=
  (Member.trees owner ms).map (MemberOrder.Member.map id fun _ => ())

def TypeDecl.outline (d : TypeDecl) : MemberOrder.TypeDecl Unit Unit :=
  d.tree.map id fun _ => ()

def Level.outline (l : Level) (y : MemberOrder.Member Unit Unit) : MemberOrder.TypeDecl Unit Unit :=
  .mk l.kind.kind l.name.text (Modifier.tree l.modifiers)
    (outlines l.name l.before ++ y :: outlines l.name l.after) () ()

def Surroundings.outline (c : Surroundings) (y : MemberOrder.Member Unit Unit) :
    CompilationUnit Unit Unit :=
  ⟨c.front.package?.map DottedName.text, c.front.types.map TypeDecl.outline ++
    c.outermost.outline (c.nested.foldl (fun y l => .type (l.outline y)) y) ::
      c.after.map TypeDecl.outline⟩

/-! What may be written. -/

def Level.Clear (l : Level) : Prop :=
  Modifier.Sealed l.kind.isSealable l.modifiers ∧
    Member.EveryOf TypeDecl.Clear Member.Clear l.kind l.before ∧
    Member.EveryOf TypeDecl.Clear Member.Clear l.kind l.after

def Surroundings.Clear (c : Surroundings) : Prop :=
  c.front.Clear ∧ (∀ l ∈ c.nested, l.Clear) ∧ c.outermost.Clear ∧
    ∀ d ∈ c.after, d.Every TypeDecl.Clear Member.Clear

theorem shows_reading (w : List Lexeme) : Shows w (unspaced ∘ (reading w).textAt) := by
  rintro t post ht ⟨pre, rfl⟩
  exact unspaced_textAt ht

theorem Member.chain_outline {kind : Kind} {owner : Name} {depth : Nat} {ms : List Member}
    (hms : Member.EveryOf TypeDecl.Clear Member.Clear kind ms)
    (hdepth : (Member.allLexemes owner ms).length ≤ depth) (post : List Lexeme) :
    ∃ raws, Chain (member? (typeDecl depth) kind.kind owner.text)
        (symbols (Member.allLexemes owner ms ++ post)) raws (symbols post) ∧
      raws.map (MemberOrder.Member.map (fun _ => ()) fun _ => ()) = outlines owner ms := by
  obtain ⟨raws, hraws, htrees⟩ := Member.chain_allLexemes
    (shows_reading (Member.allLexemes owner ms ++ post)) ms kind owner depth hms hdepth
    (List.suffix_refl _)
  refine ⟨raws, hraws, ?_⟩
  rw [outlines, ← htrees, List.map_map]
  refine List.map_congr_left fun x _ => ?_
  rw [Function.comp_apply, MemberOrder.Member.map_map]

/-- As a member these tokens are read as `y` wherever they stand, or they are refused there. -/
structure ReadsAs (accepts : Bool) (ls : List Lexeme) (y : MemberOrder.Member Unit Unit) : Prop where
  starts : Starts ls
  answers (kind : TypeKind) (owner : String) (depth : Nat) (post : List Lexeme)
    (h : ls.length ≤ depth) :
    Answers accepts (member (typeDecl depth) kind owner (symbols (ls ++ post))) (symbols post)
      (·.map (fun _ => ()) (fun _ => ()) = y)

variable {b : Bool} {gap : List Lexeme} {y : MemberOrder.Member Unit Unit}

theorem Level.members {l : Level} (hl : l.Clear) (h : ReadsAs b gap y) {depth : Nat}
    (hdepth : (l.body gap).length ≤ depth) (post : List Lexeme) :
    Answers b (many (member? (typeDecl depth) l.kind.kind l.name.text)
        (symbols (l.body gap ++ .closing .curly :: post))) (symbols (.closing .curly :: post))
      fun xs => xs.map (MemberOrder.Member.map (fun _ => ()) fun _ => ()) =
        outlines l.name l.before ++ y :: outlines l.name l.after := by
  simp only [Level.body, List.length_append] at hdepth
  rw [Level.body, List.append_assoc, List.append_assoc]
  have hlenBefore : (Member.allLexemes l.name l.before).length ≤ depth := by omega
  have hlenAfter : (Member.allLexemes l.name l.after).length ≤ depth := by omega
  obtain ⟨before, hbefore, hbefores⟩ := Member.chain_outline hl.2.1 hlenBefore
    (gap ++ (Member.allLexemes l.name l.after ++ .closing .curly :: post))
  obtain ⟨after, hafter, hafters⟩ := Member.chain_outline hl.2.2 hlenAfter (.closing .curly :: post)
  have hrest : many (member? (typeDecl depth) l.kind.kind l.name.text)
      (symbols (Member.allLexemes l.name l.after ++ .closing .curly :: post)) =
      .ok after (symbols (.closing .curly :: post)) := hafter.many_end rfl
  have hgap : Answers b (member? (typeDecl depth) l.kind.kind l.name.text
      (symbols (gap ++ (Member.allLexemes l.name l.after ++ .closing .curly :: post))))
      (symbols (Member.allLexemes l.name l.after ++ .closing .curly :: post))
      fun o => ∃ x, o = some x ∧ x.map (fun _ => ()) (fun _ => ()) = y := by
    rw [member?_of_starts (h.starts.append _)]
    refine (h.answers l.kind.kind l.name.text depth _ (by omega)).bind fun x hx => ?_
    exact ⟨_, rfl, x, rfl, hx⟩
  have hall := (hgap.first ?_ hrest).chain hbefore
  · refine ⟨fun hb => ?_, hall.refused⟩
    obtain ⟨_, hok, _, rfl, x, rfl, rfl⟩ := hall.accepted hb
    exact ⟨_, hok, by simp [hbefores, hafters]⟩
  · have hpos := h.starts.length_pos
    simp only [length_symbols, List.length_append]
    omega

theorem Level.typeDecl {l : Level} (hl : l.Clear) (h : ReadsAs b gap y) {depth : Nat}
    (hdepth : (l.tail gap).length ≤ depth) (start : Nat) {m : Modifiers Extent}
    (hm : m.map (fun _ => ()) = Modifier.tree l.modifiers) (post : List Lexeme) :
    Answers b (typeDecl depth start m (symbols (l.tail gap ++ post))) (symbols post)
      (·.map (fun _ => ()) (fun _ => ()) = l.outline y) := by
  have hlen : (l.body gap).length + 1 ≤ depth := by
    simp only [Level.tail, List.length_append, List.length_cons] at hdepth
    omega
  obtain ⟨depth, rfl⟩ : ∃ k, depth = k + 1 := ⟨depth - 1, by omega⟩
  have htail : l.tail gap ++ post = l.kind.lexemes ++ l.name.lexeme :: (l.header.lexemes ++
      .opening .curly :: (l.kind.constants false ++ (l.body gap ++ .closing .curly :: post))) := by
    simp [Level.tail]
  have hclose : expect (.closing .curly) (symbols (.closing .curly :: post)) =
      .ok () (symbols post) := expect_eq_ok_iff.2 rfl
  have hlast : false = true → l.body gap = [] := by simp
  obtain ⟨opened, hopened⟩ := typeDeclOver_body (Rule.typeDecl depth) start m l.kind l.name l.header
    hlast post
  rw [Rule.typeDecl, htail, hopened]
  refine (l.members hl h (by omega) post).bind fun xs hxs => ?_
  refine ⟨_, (bind_of_ok hclose).trans rfl, ?_⟩
  rw [MemberOrder.TypeDecl.map, MemberOrder.Member.mapAll_eq_map, hxs, hm]
  rfl

theorem Level.symbols_tail (l : Level) (gap post : List Lexeme) : ∃ s,
    symbols (l.tail gap ++ post) = symbols l.kind.lexemes ++ .identifier l.name.text :: s :=
  ⟨symbols (l.header.lexemes ++ .opening .curly :: (l.kind.constants false ++
    (l.body gap ++ .closing .curly :: post))), by simp [Level.tail]⟩

theorem Level.readsAs {l : Level} (hl : l.Clear) (h : ReadsAs b gap y) :
    ReadsAs b (l.lexemes gap) (.type (l.outline y)) := by
  refine ⟨starts_modifiers l.modifiers ?_, fun kind owner depth post hdepth => ?_⟩
  · rw [Level.tail]
    cases l.kind <;> exact ⟨_, _, rfl, by simp⟩
  · rw [Level.lexemes, List.length_append] at hdepth
    obtain ⟨s, htail⟩ := l.symbols_tail gap post
    obtain ⟨start, m, hm, hmember⟩ := member_of_kind (Rule.typeDecl depth) kind owner hl.1 htail
    rw [Level.lexemes, List.append_assoc, symbols_append, hmember]
    refine (l.typeDecl hl h (by omega) start hm post).bind fun d hd => ⟨_, rfl, ?_⟩
    rw [MemberOrder.Member.map, hd]

theorem readsAs_nested (ls : List Level) (hls : ∀ l ∈ ls, l.Clear) (h : ReadsAs b gap y) :
    ReadsAs b (ls.foldl (fun gap l => l.lexemes gap) gap)
      (ls.foldl (fun y l => .type (l.outline y)) y) := by
  induction ls generalizing gap y with
  | nil => exact h
  | cons l ls ih =>
    exact ih (fun l' hl' => hls l' (by simp [hl'])) (l.readsAs (hls l (by simp)) h)

/-! Files. -/

theorem map_outline {raws : List RawType} {g : Extent → String} {ds : List TypeDecl}
    (h : raws.map (MemberOrder.TypeDecl.map (fun _ => ()) g) = ds.map TypeDecl.tree) :
    raws.map (MemberOrder.TypeDecl.map (fun _ => ()) fun _ => ()) = ds.map TypeDecl.outline := by
  have hout : ds.map TypeDecl.outline =
      (ds.map TypeDecl.tree).map (MemberOrder.TypeDecl.map id fun _ => ()) := by
    rw [List.map_map]
    rfl
  rw [hout, ← h, List.map_map]
  refine List.map_congr_left fun d _ => ?_
  rw [Function.comp_apply, MemberOrder.TypeDecl.map_map]

theorem Level.fileItem? {l : Level} (hl : l.Clear) (h : ReadsAs b gap y) (post : List Lexeme) :
    Answers b (fileItem? (symbols (l.lexemes gap ++ post))) (symbols post)
      fun o => ∃ i, o = some i ∧ ∃ d, i = .type d ∧
        d.map (fun _ => ()) (fun _ => ()) = l.outline y := by
  obtain ⟨s, htail⟩ := l.symbols_tail gap post
  obtain ⟨start, m, hm, hitem⟩ := fileItem?_of_kind hl.1 htail
  rw [Level.lexemes, List.append_assoc, symbols_append, hitem]
  refine (l.typeDecl hl h (by simp) start hm post).bind fun d hd => ⟨_, rfl, _, rfl, d, rfl, hd⟩

theorem Surroundings.file_answers {c : Surroundings} (hc : c.Clear) (h : ReadsAs b gap y) :
    Answers b (file (symbols (c.lexemes gap))) []
      (·.map (fun _ => ()) (fun _ => ()) = c.outline y) := by
  obtain ⟨hfront, hnested, houtermost, hafter⟩ := hc
  have hinner := readsAs_nested c.nested hnested h
  obtain ⟨before, hbefore, hbefores⟩ := c.front.chain_lexemes (shows_reading _)
    (c.outermost.lexemes (c.nested.foldl (fun gap l => l.lexemes gap) gap) ++
      (c.after.flatMap TypeDecl.lexemes ++ [])) hfront (List.suffix_refl _)
  obtain ⟨after, hafters, houtlines⟩ := chain_types (shows_reading _) c.after [] hafter
    (List.suffix_refl _)
  have hrest : many fileItem? (symbols (c.after.flatMap TypeDecl.lexemes ++ [])) =
      .ok (after.map .type) [] := hafters.many_end rfl
  have houter := c.outermost.fileItem? houtermost hinner (c.after.flatMap TypeDecl.lexemes ++ [])
  have hpos := (c.outermost.readsAs houtermost hinner).starts.length_pos
  have hall := (houter.first (by simp only [length_symbols, List.length_append]; omega) hrest).chain
    hbefore
  rw [List.append_nil] at hall
  refine hall.bind ?_
  rintro _ ⟨_, rfl, _, rfl, d, rfl, hd⟩
  refine ⟨_, rfl, ?_⟩
  simp only [CompilationUnit.map, Surroundings.outline, List.append_nil, List.filterMap_append,
    List.filterMap_cons, FileItem.package?, FileItem.type?, filterMap_type?_types,
    filterMap_package?_types, File.filterMap_type?_items, File.filterMap_package?_items,
    getLast?_toList, List.map_append, List.map_cons, map_outline hbefores, map_outline houtlines, hd]

theorem Surroundings.parse_answers {c : Surroundings} (hc : c.Clear) (h : ReadsAs b gap y)
    {source : List Char} {ts : Tokens} (hts : tokenize source = .ok ts)
    (hsymbols : ts.symbols = symbols (c.lexemes gap)) :
    (b = true → ∃ u, parse source = .ok u ∧ u.map (fun _ => ()) (fun _ => ()) = c.outline y) ∧
      (b = false → ∃ e, parse source = .error e) := by
  have hfile := Surroundings.file_answers hc h
  rw [← hsymbols] at hfile
  rw [parse_of_tokenize hts, Reading.next]
  refine ⟨fun hb => ?_, fun hb => ?_⟩
  · obtain ⟨u, hu, houtline⟩ := hfile.accepted hb
    rw [hu]
    exact ⟨_, rfl, by rw [Reading.located, CompilationUnit.map_map]; exact houtline⟩
  · obtain ⟨e, s, he⟩ := hfile.refused hb
    rw [he]
    exact ⟨_, rfl⟩

end MemberOrder.Written
