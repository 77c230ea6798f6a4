import MemberOrder.Declaration.File
import MemberOrder.Proofs.Written.Members
/-! Members and type declarations are read as they are written. The types nested in a type are read by
a rule of lower depth, so one induction goes over the tree (`TypeDecl.typeDecl_tail`). -/
namespace MemberOrder.Written

open Rule

/-- Whatever consecutive tokens of `w` an extent stands for, `g` gives their text. -/
def Shows (w : List Lexeme) (g : Extent → String) : Prop :=
  ∀ t post, t ≠ [] → t ++ post <:+ w → g ⟨(t ++ post).length, post.length⟩ = textOf t

section Members

variable {nested : Nat → Modifiers Extent → Rule RawType} {kind : TypeKind} {w post : List Lexeme}
  {g : Extent → String}

theorem member_of_tail (nested : Nat → Modifiers Extent → Rule RawType) (kind : TypeKind)
    (owner : String) {p : Prop} {ms : List Modifier} {s : List Symbol}
    (hs : Opens s) (hseal : Modifier.Sealed p ms) (hp : p → sealsNext s) :
    ∃ start m, m.map (fun _ => ()) = Modifier.tree ms ∧
      member nested kind owner (symbols (ms.flatMap Modifier.lexemes) ++ s) =
        modifiedMember nested kind owner start m s := by
  obtain ⟨m, hm, htree⟩ := modifiers_modifiers hs.endsName hs.modifier hseal hp
  refine ⟨(symbols (ms.flatMap Modifier.lexemes) ++ s).length, m, htree, ?_⟩
  rw [member_of_opens ms hs, bind_of_ok hm]

theorem not_nextIs_declarators (d : Declarator) (more : List (Name × Declarator)) (s : List Symbol) :
    ¬ nextIs (.opening .round) (symbols (declarators d more) ++ s) := by
  unfold declarators Declarator.lexemes Declarator.initializer
  cases d.dimensions with
  | cons c cs => simp [grouped]
  | nil =>
    cases d.initializer? with
    | some c => simp
    | none => cases more <;> simp

theorem member_field (hg : Shows w g) {owner : Name} {ms : List Modifier} {g? : Option Generics}
    {t : TypeUse} {n : Name} {d : Declarator} {more : List (Name × Declarator)}
    (hseal : Modifier.Sealed False ms) (ht : t.NotRecord g?)
    (hw : (Member.field ms g? t n d more).lexemes owner ++ post <:+ w) :
    ∃ raw, member nested kind owner.text
        (symbols ((Member.field ms g? t n d more).lexemes owner ++ post)) = .ok raw (symbols post) ∧
      raw.map (fun _ => ()) g = (Member.field ms g? t n d more).tree owner := by
  have htext := hg t.lexemes (n.lexeme :: (declarators d more ++ post)) (by simp [TypeUse.lexemes])
    (List.IsSuffix.trans ⟨ms.flatMap Modifier.lexemes ++ g?.elim [] Generics.lexemes, by
      simp [Member.lexemes, Member.tail, Member.modifiers]⟩ hw)
  have hsymbols : symbols ((Member.field ms g? t n d more).lexemes owner ++ post) =
      symbols (ms.flatMap Modifier.lexemes) ++ (symbols (g?.elim [] Generics.lexemes ++ t.lexemes) ++
        .identifier n.text :: (symbols (declarators d more) ++ symbols post)) := by
    simp [Member.lexemes, Member.tail, Member.modifiers]
  obtain ⟨start, m, hm, hmember⟩ := member_of_tail nested kind owner.text
    (opens_typed g? t n.text (symbols (declarators d more) ++ symbols post)) hseal False.elim
  rw [hsymbols, hmember, modifiedMember_typed start m ht,
    if_neg (not_nextIs_declarators d more _), field_declarators]
  refine ⟨_, rfl, ?_⟩
  simp only [MemberOrder.Member.map, Member.tree, hm, ← htext]
  simp

theorem member_method (hg : Shows w g) {owner : Name} {ms : List Modifier} {g? : Option Generics}
    {t : TypeUse} {n : Name} {ps : Stretch []}
    {ts : Stretch [.opening .curly, .mark .semicolon, .keyword (.modifier .default)]} {e : Ending}
    (hseal : Modifier.Sealed False ms) (ht : t.NotRecord g?)
    (hw : (Member.method ms g? t n ps ts e).lexemes owner ++ post <:+ w) :
    ∃ raw, member nested kind owner.text
        (symbols ((Member.method ms g? t n ps ts e).lexemes owner ++ post)) = .ok raw (symbols post) ∧
      raw.map (fun _ => ()) g = (Member.method ms g? t n ps ts e).tree owner := by
  have htext := hg t.lexemes
    (n.lexeme :: (grouped .round ps ++ (ts.lexemes ++ e.lexemes) ++ post)) (by simp [TypeUse.lexemes])
    (List.IsSuffix.trans ⟨ms.flatMap Modifier.lexemes ++ g?.elim [] Generics.lexemes, by
      simp [Member.lexemes, Member.tail, Member.modifiers]⟩ hw)
  have hsymbols : symbols ((Member.method ms g? t n ps ts e).lexemes owner ++ post) =
      symbols (ms.flatMap Modifier.lexemes) ++ (symbols (g?.elim [] Generics.lexemes ++ t.lexemes) ++
        .identifier n.text ::
          (symbols (grouped .round ps ++ (ts.lexemes ++ e.lexemes)) ++ symbols post)) := by
    simp [Member.lexemes, Member.tail, Member.modifiers]
  obtain ⟨start, m, hm, hmember⟩ := member_of_tail nested kind owner.text
    (opens_typed g? t n.text (symbols (grouped .round ps ++ (ts.lexemes ++ e.lexemes)) ++ symbols post))
    hseal False.elim
  rw [hsymbols, hmember, modifiedMember_typed start m ht, if_pos (by simp [grouped]), method_ending]
  refine ⟨_, rfl, ?_⟩
  simp only [MemberOrder.Member.map, Member.tree, hm, ← htext]
  simp

theorem member_constructor {owner : Name} {ms : List Modifier} {g? : Option Angles}
    {ps : Stretch []} {ts : Stretch [.opening .curly]} {body : Stretch []}
    (hseal : Modifier.Sealed False ms) :
    ∃ raw, member nested kind owner.text
        (symbols ((Member.constructor ms g? ps ts body).lexemes owner ++ post)) =
          .ok raw (symbols post) ∧
      raw.map (fun _ => ()) g = (Member.constructor ms g? ps ts body).tree owner := by
  have hsymbols : symbols ((Member.constructor ms g? ps ts body).lexemes owner ++ post) =
      symbols (ms.flatMap Modifier.lexemes) ++ (symbols (g?.elim [] Angles.lexemes) ++
        .identifier owner.text ::
          (symbols (grouped .round ps ++ (ts.lexemes ++ grouped .curly body)) ++ symbols post)) := by
    simp [Member.lexemes, Member.tail, Member.modifiers]
  have hform : constructorForm? kind owner.text (.identifier owner.text ::
      (symbols (grouped .round ps ++ (ts.lexemes ++ grouped .curly body)) ++ symbols post)) =
      some false := by
    simp [grouped, constructorForm?]
  obtain ⟨start, m, hm, hmember⟩ := member_of_tail nested kind owner.text
    (opens_constructor g? hform) hseal False.elim
  rw [hsymbols, hmember, modifiedMember_constructor start m g? hform, ← List.cons_append,
    constructor_full]
  refine ⟨_, rfl, ?_⟩
  simp only [MemberOrder.Member.map, Member.tree, hm]

theorem member_compact {owner : Name} {ms : List Modifier} {g? : Option Angles} {body : Stretch []}
    (hseal : Modifier.Sealed False ms) :
    ∃ raw, member nested .record owner.text
        (symbols ((Member.compact ms g? body).lexemes owner ++ post)) = .ok raw (symbols post) ∧
      raw.map (fun _ => ()) g = (Member.compact ms g? body).tree owner := by
  have hsymbols : symbols ((Member.compact ms g? body).lexemes owner ++ post) =
      symbols (ms.flatMap Modifier.lexemes) ++ (symbols (g?.elim [] Angles.lexemes) ++
        .identifier owner.text :: (symbols (grouped .curly body) ++ symbols post)) := by
    simp [Member.lexemes, Member.tail, Member.modifiers]
  have hform : constructorForm? .record owner.text
      (.identifier owner.text :: (symbols (grouped .curly body) ++ symbols post)) = some true := by
    simp [grouped, constructorForm?]
  obtain ⟨start, m, hm, hmember⟩ := member_of_tail nested .record owner.text
    (opens_constructor g? hform) hseal False.elim
  rw [hsymbols, hmember, modifiedMember_constructor start m g? hform, ← List.cons_append,
    constructor_compact]
  refine ⟨_, rfl, ?_⟩
  simp only [MemberOrder.Member.map, Member.tree, hm]

theorem member_initializer {owner : Name} (isStatic : Bool) (body : Stretch []) :
    ∃ raw, member nested kind owner.text
        (symbols ((Member.initializer isStatic body).lexemes owner ++ post)) = .ok raw (symbols post) ∧
      raw.map (fun _ => ()) g = (Member.initializer isStatic body).tree owner := by
  cases isStatic with
  | false =>
    have hsymbols : symbols ((Member.initializer false body).lexemes owner ++ post) =
        symbols (grouped .curly body) ++ symbols post := by
      simp [Member.lexemes, Member.tail, Member.modifiers]
    rw [hsymbols]
    exact ⟨_, initializer_grouped _ false body _, rfl⟩
  | true =>
    have hsymbols : symbols ((Member.initializer true body).lexemes owner ++ post) =
        .keyword (.modifier .static) :: (symbols (grouped .curly body) ++ symbols post) := by
      simp [Member.lexemes, Member.tail, Member.modifiers]
    rw [hsymbols]
    exact ⟨_, initializer_grouped _ true body _, rfl⟩

theorem member_empty {owner : Name} :
    ∃ raw, member nested kind owner.text (symbols (Member.empty.lexemes owner ++ post)) =
        .ok raw (symbols post) ∧ raw.map (fun _ => ()) g = Member.empty.tree owner :=
  ⟨_, rfl, rfl⟩

def Starts (ls : List Lexeme) : Prop :=
  ∃ l t, ls = l :: t ∧ l.symbol ≠ .closing .curly

theorem Starts.append {ls : List Lexeme} (h : Starts ls) (post : List Lexeme) :
    Starts (ls ++ post) := by
  obtain ⟨l, t, rfl, hne⟩ := h
  exact ⟨l, t ++ post, rfl, hne⟩

theorem Starts.length_pos {ls : List Lexeme} (h : Starts ls) : 0 < ls.length := by
  obtain ⟨l, t, rfl, _⟩ := h
  simp

theorem starts_modifiers (ms : List Modifier) {ls : List Lexeme} (h : Starts ls) :
    Starts (ms.flatMap Modifier.lexemes ++ ls) := by
  cases ms with
  | nil => exact h
  | cons m ms => cases m <;> exact ⟨_, _, rfl, by simp⟩

theorem starts_tail (d : TypeDecl) : Starts d.tail := by
  obtain ⟨kind, name, ms, header, members⟩ := d
  rw [TypeDecl.tail]
  cases kind <;> exact ⟨_, _, rfl, by simp⟩

theorem starts_lexemes (owner : Name) (m : Member) : Starts (m.lexemes owner) := by
  refine starts_modifiers m.modifiers ?_
  cases m with
  | field _ g? | constructor _ g? | compact _ g? | method _ g? =>
    rw [Member.tail]
    cases g? <;> exact ⟨_, _, rfl, by simp⟩
  | type d =>
    rw [Member.tail]
    exact starts_tail d
  | initializer isStatic body =>
    rw [Member.tail]
    cases isStatic <;> exact ⟨_, _, rfl, by simp⟩
  | empty =>
    rw [Member.tail]
    exact ⟨_, _, rfl, by simp⟩

theorem member?_of_starts {owner : String} {ls : List Lexeme} (hls : Starts ls) :
    member? nested kind owner (symbols ls) =
      (member nested kind owner >>= fun x => pure (some x)) (symbols ls) := by
  obtain ⟨l, t, rfl, hl⟩ := hls
  have hcons : symbols (l :: t) = l.symbol :: symbols t := rfl
  generalize symbols (l :: t) = u at hcons ⊢
  unfold member?
  rw [get_bind]
  split
  next => exact absurd (List.cons.inj hcons).1.symm hl
  next => cases hcons
  next => rfl

theorem member?_of_member {owner : String} {ls : List Lexeme} {s : List Symbol} {raw : RawMember}
    (hls : Starts ls) (h : member nested kind owner (symbols ls) = .ok raw s) :
    member? nested kind owner (symbols ls) = .ok (some raw) s := by
  rw [member?_of_starts hls, bind_of_ok h]
  rfl

end Members

section Types

variable {nested : Nat → Modifiers Extent → Rule RawType}

theorem typeKeyword_kind (kind : Kind) (n : String) (s : List Symbol) :
    typeKeyword (symbols kind.lexemes ++ .identifier n :: s) = .ok kind.kind (.identifier n :: s) := by
  cases kind <;> rfl

theorem declaresType_kind (kind : Kind) (n : String) (s : List Symbol) :
    declaresType (symbols kind.lexemes ++ .identifier n :: s) := by
  cases kind with
  | record => simp [Kind.lexemes, declaresType, Name.record]
  | _ => rfl

theorem member_of_kind (nested : Nat → Modifiers Extent → Rule RawType) (kind : TypeKind)
    (owner : String) {ms : List Modifier} {k : Kind} (hseal : Modifier.Sealed k.isSealable ms)
    {n : String} {s t : List Symbol} (ht : t = symbols k.lexemes ++ .identifier n :: s) :
    ∃ start m, m.map (fun _ => ()) = Modifier.tree ms ∧
      member nested kind owner (symbols (ms.flatMap Modifier.lexemes) ++ t) =
        (nested start m >>= fun d => pure (.type d)) t := by
  have hopens : Opens t := ht ▸ opens_kind k s n
  have hdeclares : declaresType t := ht ▸ declaresType_kind k n s
  obtain ⟨start, m, hm, hmember⟩ := member_of_tail nested kind owner hopens hseal
    fun h => ht ▸ sealsNext_kind h _
  refine ⟨start, m, hm, ?_⟩
  rw [hmember, modifiedMember, get_bind, if_pos hdeclares]

theorem enumConstants_constants
    (cs : Stretch [.mark .semicolon, .closing .curly]) (semicolon : Bool) {isLast : Bool}
    {s : List Symbol} (hs : isLast → s.head? = some (.closing .curly)) :
    enumConstants (symbols ((Kind.enum cs semicolon).constants isLast) ++ s) = .ok () s := by
  have hskip {t : List Symbol} (ht : t.head? ∈ [some (.mark .semicolon), some (.closing .curly)]) :
      skipTo (fun s => nextIs (.mark .semicolon) s || nextIs (.closing .curly) s)
        (symbols cs.lexemes ++ t) = .ok () t := by
    refine skipTo_stretch cs (fun x s hx => ?_) ?_
    · simp only [List.mem_cons, List.not_mem_nil, or_false, not_or] at hx
      simp [hx]
    · simpa [nextIs] using ht
  unfold enumConstants Kind.constants
  simp only [symbols_append, List.append_assoc]
  by_cases hwritten : semicolon || !isLast
  · rw [if_pos hwritten]
    simp only [symbols_cons, symbols_nil, List.cons_append, List.nil_append, Lexeme.symbol_mark]
    rw [bind_of_ok (hskip (by simp)), get_bind, if_pos (nextIs_self _ _)]
    rfl
  · have hlast : isLast := by
      simp only [Bool.or_eq_true, Bool.not_eq_true', not_or] at hwritten
      simpa using hwritten.2
    rw [if_neg hwritten]
    simp only [symbols_nil, List.nil_append]
    rw [bind_of_ok (hskip (by simp [hs hlast])), get_bind, if_neg (by simp [nextIs, hs hlast])]
    rfl

theorem typeDeclOver_body (nested : Nat → Modifiers Extent → Rule RawType) (start : Nat)
    (m : Modifiers Extent) (kind : Kind) (name : Name) (header : Stretch [.opening .curly])
    {isLast : Bool} {body : List Lexeme} (hlast : isLast → body = []) (post : List Lexeme) :
    ∃ opened, typeDeclOver nested start m
      (symbols (kind.lexemes ++ name.lexeme :: (header.lexemes ++ .opening .curly ::
        (kind.constants isLast ++ (body ++ .closing .curly :: post))))) = (do
      let members ← many (member? nested kind.kind name.text)
      expect (.closing .curly)
      return .mk kind.kind name.text m members (← since opened) (← since start) : Rule RawType)
        (symbols (body ++ .closing .curly :: post)) := by
  have hsymbols : symbols (kind.lexemes ++ name.lexeme :: (header.lexemes ++ .opening .curly ::
        (kind.constants isLast ++ (body ++ .closing .curly :: post)))) =
      symbols kind.lexemes ++ .identifier name.text :: (symbols header.lexemes ++ .opening .curly ::
        (symbols (kind.constants isLast) ++ symbols (body ++ .closing .curly :: post))) := by
    simp
  have hskip (s : List Symbol) : skipTo (nextIs (.opening .curly))
      (symbols header.lexemes ++ .opening .curly :: s) = .ok () (.opening .curly :: s) :=
    skipTo_stretch header (fun x s hx => by simpa using hx) (nextIs_self _ _)
  have hconstants (henum : kind.kind = .enum) : enumConstants
      (symbols (kind.constants isLast) ++ symbols (body ++ .closing .curly :: post)) =
      .ok () (symbols (body ++ .closing .curly :: post)) := by
    cases kind with
    | enum cs semicolon =>
      refine enumConstants_constants cs semicolon fun h => ?_
      rw [hlast h]
      rfl
    | «class» | interface | record | annotationType => cases henum
  have hnone (hother : ¬ kind.kind = .enum) :
      symbols (kind.constants isLast) ++ symbols (body ++ .closing .curly :: post) =
      symbols (body ++ .closing .curly :: post) := by
    cases kind with
    | enum cs semicolon => exact absurd rfl hother
    | «class» | interface | record | annotationType => rfl
  unfold typeDeclOver
  rw [hsymbols, bind_of_ok (typeKeyword_kind kind _ _), bind_of_ok (identifier_name name _),
    bind_of_ok (hskip _), unread_bind, bind_of_ok (expect_eq_ok_iff.2 rfl)]
  exact ⟨_, ite_bind_of_ok hconstants hnone⟩

theorem typeDeclOver_tail (start : Nat) (m : Modifiers Extent) {kind : Kind} {name : Name}
    (ms : List Modifier) (header : Stretch [.opening .curly]) {members : List Member}
    {post : List Lexeme} {raws : List RawMember}
    (h : many (member? nested kind.kind name.text)
      (symbols (Member.allLexemes name members ++ .closing .curly :: post)) =
        .ok raws (symbols (.closing .curly :: post))) :
    ∃ body span, typeDeclOver nested start m
      (symbols ((TypeDecl.mk kind name ms header members).tail ++ post)) =
        .ok (.mk kind.kind name.text m raws body span) (symbols post) := by
  have htail : (TypeDecl.mk kind name ms header members).tail ++ post =
      kind.lexemes ++ name.lexeme :: (header.lexemes ++ .opening .curly ::
        (kind.constants members.isEmpty ++
          (Member.allLexemes name members ++ .closing .curly :: post))) := by
    simp [TypeDecl.tail]
  have hlast (hempty : members.isEmpty) : Member.allLexemes name members = [] := by
    obtain rfl : members = [] := by simpa using hempty
    rfl
  have hclose : expect (.closing .curly) (symbols (.closing .curly :: post)) =
      .ok () (symbols post) := expect_eq_ok_iff.2 rfl
  obtain ⟨opened, hopened⟩ := typeDeclOver_body nested start m kind name header hlast post
  rw [htail, hopened]
  exact ⟨_, _, (bind_of_ok h).trans <| (bind_of_ok hclose).trans rfl⟩

end Types

theorem TypeDecl.Every.self {p : TypeDecl → Prop} {q : Kind → Member → Prop} {d : TypeDecl}
    (h : d.Every p q) : p d := by
  cases d
  exact h.1

theorem TypeDecl.symbols_tail (d : TypeDecl) (post : List Lexeme) : ∃ kind n s,
    symbols (d.tail ++ post) = symbols (Kind.lexemes kind) ++ .identifier n :: s ∧
      (TypeDecl.Clear d → Modifier.Sealed kind.isSealable d.modifiers) := by
  obtain ⟨kind, name, ms, header, members⟩ := d
  exact ⟨kind, name.text, symbols (header.lexemes ++ .opening .curly ::
    (kind.constants members.isEmpty ++ (Member.allLexemes name members ++ .closing .curly :: post))),
    by simp [TypeDecl.tail], id⟩

variable {w : List Lexeme} {g : Extent → String}

mutual

theorem TypeDecl.typeDecl_tail (hg : Shows w g) : ∀ (d : TypeDecl) (depth start : Nat)
    (m : Modifiers Extent) {post : List Lexeme}, d.Every TypeDecl.Clear Member.Clear →
    d.tail.length ≤ depth → d.tail ++ post <:+ w →
    m.map (fun _ => ()) = Modifier.tree d.modifiers →
    ∃ raw, typeDecl depth start m (symbols (d.tail ++ post)) = .ok raw (symbols post) ∧
      raw.map (fun _ => ()) g = d.tree
  | .mk kind name ms header members, depth, start, m, post, hd, hdepth, hw, hm => by
    have hlen : (Member.allLexemes name members).length + 1 ≤ depth := by
      simp only [TypeDecl.tail, List.length_append, List.length_cons] at hdepth
      omega
    obtain ⟨depth, rfl⟩ : ∃ k, depth = k + 1 := ⟨depth - 1, by omega⟩
    have hsuffix : Member.allLexemes name members ++ .closing .curly :: post <:+ w :=
      List.IsSuffix.trans ⟨kind.lexemes ++ name.lexeme :: (header.lexemes ++ .opening .curly ::
        kind.constants members.isEmpty), by simp [TypeDecl.tail]⟩ hw
    obtain ⟨raws, hraws, htrees⟩ := Member.chain_allLexemes hg members kind name depth hd.2
      (by omega) hsuffix
    obtain ⟨body, span, hread⟩ := typeDeclOver_tail start m ms header (hraws.many_end rfl)
    refine ⟨_, hread, ?_⟩
    rw [MemberOrder.TypeDecl.map, MemberOrder.Member.mapAll_eq_map, htrees, hm]
    rfl

theorem Member.member_lexemes (hg : Shows w g) : ∀ (m : Member) (kind : Kind) (owner : Name)
    (depth : Nat) {post : List Lexeme}, m.Clear kind → m.Every TypeDecl.Clear Member.Clear →
    (m.lexemes owner).length ≤ depth → m.lexemes owner ++ post <:+ w →
    ∃ raw, member (typeDecl depth) kind.kind owner.text (symbols (m.lexemes owner ++ post)) =
        .ok raw (symbols post) ∧ raw.map (fun _ => ()) g = m.tree owner
  | .field .., _, _, _, _, hm, _, _, hw => member_field hg hm.1 hm.2 hw
  | .constructor .., _, _, _, _, hm, _, _, _ => member_constructor hm
  | .compact .., _, _, _, _, ⟨hm, rfl⟩, _, _, _ => member_compact hm
  | .method .., _, _, _, _, hm, _, _, hw => member_method hg hm.1 hm.2 hw
  | .type d, kind, owner, depth, post, _, hd, hdepth, hw => by
    have hlexemes : (Member.type d).lexemes owner =
        d.modifiers.flatMap Modifier.lexemes ++ d.tail := by
      simp [Member.lexemes, Member.tail, Member.modifiers]
    rw [hlexemes, List.append_assoc] at hw
    have hlen : d.tail.length ≤ depth := by
      rw [hlexemes, List.length_append] at hdepth
      omega
    obtain ⟨kind', n, s, htail, hsealed⟩ := d.symbols_tail post
    obtain ⟨start, m, hm, hmember⟩ := member_of_kind (typeDecl depth) kind.kind owner.text
      (hsealed hd.self) htail
    obtain ⟨raw, hraw, htree⟩ := d.typeDecl_tail hg depth start m hd hlen
      (List.IsSuffix.trans (List.suffix_append _ _) hw) hm
    refine ⟨.type raw, ?_, ?_⟩
    · rw [hlexemes, List.append_assoc, symbols_append, hmember, bind_of_ok hraw]
      rfl
    · rw [MemberOrder.Member.map, htree, Member.tree]
  | .initializer isStatic body, _, _, _, _, _, _, _, _ => member_initializer isStatic body
  | .empty, _, _, _, _, _, _, _, _ => member_empty

theorem Member.chain_allLexemes (hg : Shows w g) : ∀ (members : List Member) (kind : Kind)
    (owner : Name) (depth : Nat) {post : List Lexeme},
    Member.EveryOf TypeDecl.Clear Member.Clear kind members →
    (Member.allLexemes owner members).length ≤ depth →
    Member.allLexemes owner members ++ post <:+ w →
    ∃ raws, Chain (member? (typeDecl depth) kind.kind owner.text)
        (symbols (Member.allLexemes owner members ++ post)) raws (symbols post) ∧
      raws.map (MemberOrder.Member.map (fun _ => ()) g) = Member.trees owner members
  | [], _, _, _, _, _, _, _ => ⟨[], .nil _, rfl⟩
  | m :: ms, kind, owner, depth, post, hms, hdepth, hw => by
    rw [Member.allLexemes_cons, List.append_assoc] at hw ⊢
    rw [Member.allLexemes_cons, List.length_append] at hdepth
    obtain ⟨raw, hraw, htree⟩ := Member.member_lexemes hg m kind owner depth hms.1.1 hms.1.2
      (by omega) hw
    obtain ⟨raws, hraws, htrees⟩ := Member.chain_allLexemes hg ms kind owner depth hms.2 (by omega)
      (List.IsSuffix.trans (List.suffix_append _ _) hw)
    have hstarts := starts_lexemes owner m
    refine ⟨raw :: raws, .cons (member?_of_member (hstarts.append _) hraw) ?_ hraws, ?_⟩
    · have hpos := hstarts.length_pos
      simp only [length_symbols, List.length_append]
      omega
    · rw [List.map_cons, htree, htrees, Member.trees]

end

end MemberOrder.Written
