import MemberOrder.Proofs.Declaration.Bodies
import MemberOrder.Proofs.Declaration.Origins
/-! What stands between the name of a type, or the parameters of a constructor, and the body. It is read
over up to the first brace outside brackets, whatever it is: a semicolon there is read over as well, and
with it the declaration that it would end. Main statement: `heads_of_parse`. -/
namespace MemberOrder

variable {σ τ : Type}

def IsHead (c : List Symbol) : Prop := BalancedOver (· ≠ .opening .curly) c

/-- No semicolon stands outside brackets. -/
def Unbroken (c : List Symbol) : Prop := BalancedOver (· ≠ .mark .semicolon) c

def Member.isFull : Member σ τ → Bool
  | .constructor _ _ compact _ => !compact
  | _ => false

/-- What can stand in front of the name of a constructor. -/
inductive ConstructorFront : List Symbol → Prop
  | plain {r} (h : ModifierRun r) : ConstructorFront r
  | generic {r c l} (h : ModifierRun r) (hc : InAngles 1 c l) : ConstructorFront (r ++ .mark .less :: c)

def typeText (kind : TypeKind) (name : String) (head rest : List Symbol) : List Symbol :=
  kind.symbols ++ .identifier name :: (head ++ .opening .curly :: rest)

def constructorText (name : String) (params clause block rest : List Symbol) : List Symbol :=
  .identifier name :: .opening .round :: (params ++ .closing .round ::
    (clause ++ .opening .curly :: (block ++ .closing .curly :: rest)))

structure TypeDecl.HeadIn (w front head rest : List Symbol) (d : RawType) : Prop where
  text : front ++ typeText d.kind d.name head rest <:+ w
  modifiers : ModifierRun front
  isHead : IsHead head
  span : d.span.unread = (front ++ typeText d.kind d.name head rest).length
  body : d.body.unread = (Symbol.opening .curly :: rest).length

structure Member.ClauseIn (w front params clause block rest : List Symbol) (m : Modifiers Extent)
    (name : String) (x : RawMember) : Prop where
  text : front ++ constructorText name params clause block rest <:+ w
  starts : ConstructorFront front
  grouped : Balanced params ∧ Balanced block
  isHead : IsHead clause
  eq : x = .constructor m name false
    ⟨(front ++ constructorText name params clause block rest).length, rest.length⟩

def TypeDecl.Unmerged (w : List Symbol) (d : RawType) : Prop :=
  ∀ front head rest, d.HeadIn w front head rest → Unbroken head

def Member.Unmerged (w : List Symbol) (x : RawMember) : Prop :=
  ∀ front params clause block rest m name, x.ClauseIn w front params clause block rest m name →
    Unbroken clause

namespace Rule

variable {s t : List Symbol}

theorem skipTo_head {c : List Symbol} (hc : IsHead c) (t : List Symbol) :
    skipTo (nextIs (.opening .curly)) (c ++ .opening .curly :: t) = .ok () (.opening .curly :: t) :=
  skipTo_append (fun x s hx => by simpa using hx) hc (nextIs_self _ _)

theorem isHead_of_skipTo (h : skipTo (nextIs (.opening .curly)) s = .ok () t) :
    ∃ c, IsHead c ∧ s = c ++ t := by
  obtain ⟨c, rfl, hc, _⟩ :=
    balancedOver_of_skipTo (p := (· ≠ .opening .curly)) (fun x s hx => by simpa using hx) h
  exact ⟨c, hc, rfl⟩

theorem header_eq_ok_iff {kind : TypeKind} {name : String} :
    header s = .ok (kind, name) (.opening .curly :: t) ↔
      ∃ c, IsHead c ∧ s = typeText kind name c t := by
  constructor
  · intro h
    obtain ⟨kind', s₁, hkind, h⟩ := bind_eq_ok_iff.1 h
    obtain ⟨name', s₂, hname, h⟩ := bind_eq_ok_iff.1 h
    obtain ⟨_, s₃, hskip, h⟩ := bind_eq_ok_iff.1 h
    cases h
    obtain ⟨c, hc, rfl⟩ := isHead_of_skipTo hskip
    obtain rfl := identifier_eq_ok.1 hname
    exact ⟨c, hc, typeKeyword_eq_ok.1 hkind⟩
  · intro h
    obtain ⟨c, hc, rfl⟩ := h
    rw [typeText, header, bind_of_ok (typeKeyword_eq_ok.2 rfl), bind_of_ok (identifier_eq_ok.2 rfl),
      bind_of_ok (skipTo_head hc t)]
    rfl

theorem constructor_eq_ok_iff {start : Nat} {m : Modifiers Extent} {x : RawMember} :
    constructor start m false s = .ok x t ↔ ∃ name params clause block,
      s = constructorText name params clause block t ∧ Balanced params ∧ IsHead clause ∧
        Balanced block ∧ x = .constructor m name false ⟨start, t.length⟩ := by
  constructor
  · intro h
    obtain ⟨name, s₁, hname, h⟩ := bind_eq_ok_iff.1 h
    obtain ⟨_, s₂, hparams, h⟩ := bind_eq_ok_iff.1 h
    obtain ⟨_, s₃, hclause, h⟩ := bind_eq_ok_iff.1 h
    obtain ⟨_, s₄, hblock, h⟩ := bind_eq_ok_iff.1 h
    cases h
    obtain rfl := identifier_eq_ok.1 hname
    obtain ⟨params, rfl, hp⟩ := group_eq_ok_iff.1 hparams
    obtain ⟨clause, hc, rfl⟩ := isHead_of_skipTo hclause
    obtain ⟨block, rfl, hb⟩ := group_eq_ok_iff.1 hblock
    exact ⟨name, params, clause, block, rfl, hp, hc, hb, rfl⟩
  · intro h
    obtain ⟨name, params, clause, block, rfl, hp, hc, hb, rfl⟩ := h
    rw [constructorText, Rule.constructor, bind_of_ok (identifier_eq_ok.2 rfl)]
    refine (bind_of_ok (group_append hp _)).trans ?_
    rw [bind_of_ok (skipTo_head hc _)]
    exact (bind_of_ok (group_append hb t)).trans rfl

structure MakesNone (r : Rule RawMember) : Prop where
  isFull {s x t} (h : r s = .ok x t) : x.isFull = false

theorem MakesNone.bind {α : Type} {x : Rule α} {f : α → Rule RawMember} (hf : ∀ a, MakesNone (f a)) :
    MakesNone (x >>= f) := by
  constructor
  intro s b u h
  obtain ⟨a, t, _, hb⟩ := bind_eq_ok_iff.1 h
  exact (hf a).isFull hb

theorem MakesNone.ite {p : Prop} [Decidable p] {x y : Rule RawMember} (hx : MakesNone x)
    (hy : MakesNone y) : MakesNone (if p then x else y) := by
  split
  · exact hx
  · exact hy

theorem MakesNone.since {start : Nat} {f : Extent → RawMember} (hf : ∀ e, (f e).isFull = false) :
    MakesNone (do return f (← since start)) := by
  constructor
  intro s x t h
  cases h
  exact hf _

theorem MakesNone.initializer (start : Nat) (isStatic : Bool) : MakesNone (initializer start isStatic) :=
  .bind fun _ => .since fun _ => rfl

theorem MakesNone.memberAt {kind : TypeKind} {owner : String}
    {nested : Nat → Modifiers Extent → Rule RawType} (start : Nat) {c : MemberStart}
    (hc : c ≠ .modified) : MakesNone (memberAt kind owner nested start c) := by
  cases c with
  | semicolon => exact .bind fun _ => .since (f := .empty) fun _ => rfl
  | block => exact .initializer start false
  | staticBlock => exact .bind fun _ => .initializer start true
  | modified => exact absurd rfl hc

theorem MakesNone.formed (start : Nat) (m : Modifiers Extent) {form? : Option Bool}
    (hform : form? ≠ some false) : MakesNone (formed start m form?) := by
  cases form? with
  | none =>
    refine .bind fun type => .bind fun name => .bind fun _ => .ite ?_ ?_
    · exact .bind fun _ => .bind fun _ => .bind fun _ =>
        .ite (.bind fun _ => .since fun _ => rfl) (.bind fun _ => .since fun _ => rfl)
    · exact .bind fun _ => .since fun _ => rfl
  | some compact =>
    cases compact with
    | true => exact .bind fun _ => .bind fun _ => .since fun _ => rfl
    | false => exact absurd rfl hform

theorem leaf_eq_constructor {kind : TypeKind} {owner : String} {x : RawMember}
    (h : leaf kind owner s = .ok x t) (hx : x.isFull) :
    ∃ front u m, s = front ++ u ∧ ConstructorFront front ∧
      constructor s.length m false u = .ok x t := by
  rw [leaf, member_eq] at h
  by_cases hstart : memberStart s = .modified
  · rw [hstart] at h
    obtain ⟨m, s₁, hm, h⟩ := bind_eq_ok_iff.1 h
    obtain ⟨r, rfl, hr⟩ := modifiers_run hm
    rw [modifiedMember, get_bind] at h
    split at h
    next =>
      obtain ⟨d, u, hd, _⟩ := bind_eq_ok_iff.1 h
      cases hd
    next =>
      rw [get_bind] at h
      obtain ⟨u, hangles, h⟩ := of_ite_bind h
      change formed (r ++ s₁).length m (constructorForm? kind owner u) u = .ok x t at h
      by_cases hform : constructorForm? kind owner u = some false
      · rw [hform] at h
        obtain ⟨_, hangles⟩ | ⟨_, rfl⟩ := hangles
        · obtain ⟨c, l, rfl, hc⟩ := angles_eq_ok_iff.1 hangles
          exact ⟨r ++ .mark .less :: c, u, m, by simp, .generic hr hc, h⟩
        · exact ⟨r, u, m, rfl, .plain hr, h⟩
      · rw [(MakesNone.formed _ m hform).isFull h] at hx
        cases hx
  · rw [(MakesNone.memberAt _ hstart).isFull h] at hx
    cases hx

end Rule

section OneHead

variable {w front front' head head' params params' clause clause' block block' rest rest' s s' :
  List Symbol} {d : RawType} {x : RawMember}

theorem IsIntroduced.typeText {kind : TypeKind} {name : String} :
    IsIntroduced (typeText kind name head rest) := by
  refine .type ?_
  cases kind <;> rfl

theorem ConstructorFront.rest_eq (h : ConstructorFront front) (h' : ConstructorFront front') {n n' : String}
    (heq : front ++ .identifier n :: .opening .round :: s =
      front' ++ .identifier n' :: .opening .round :: s') : s = s' := by
  cases h with
  | plain hr =>
    cases h' with
    | plain hr' =>
      have hname := hr.rest_eq hr' .name .name heq
      exact (List.cons.inj (List.cons.inj hname).2).2
    | generic hr' hc' =>
      rw [List.append_assoc] at heq
      cases hr.rest_eq hr' .name .generic heq
  | generic hr hc =>
    rw [List.append_assoc] at heq
    cases h' with
    | plain hr' => cases hr.rest_eq hr' .generic .name heq
    | generic hr' hc' =>
      rw [List.append_assoc] at heq
      have hangles := hr.rest_eq hr' .generic .generic heq
      have hname := Rule.angles_rest_eq hc hc' (List.cons.inj hangles).2
      exact (List.cons.inj (List.cons.inj hname).2).2

theorem TypeDecl.HeadIn.head_eq (h : d.HeadIn w front head rest) (h' : d.HeadIn w front' head' rest') :
    head = head' := by
  have hlength := h.span.symm.trans h'.span
  have htext := (List.suffix_of_suffix_length_le h.text h'.text hlength.le).eq_of_length hlength
  have hname := h.modifiers.rest_eq h'.modifiers .typeText .typeText htext
  have hbody := List.append_cancel_left hname
  exact List.append_inj_left' (List.cons.inj hbody).2 (h.body.symm.trans h'.body)

theorem Member.ClauseIn.clause_eq {m m' : Modifiers Extent} {name name' : String}
    (h : x.ClauseIn w front params clause block rest m name)
    (h' : x.ClauseIn w front' params' clause' block' rest' m' name') : clause = clause' := by
  have hx := h.eq.symm.trans h'.eq
  simp only [Member.constructor.injEq, Extent.mk.injEq] at hx
  have hlength := hx.2.2.2.1
  have htext := (List.suffix_of_suffix_length_le h.text h'.text hlength.le).eq_of_length hlength
  have hparams := h.starts.rest_eq h'.starts htext
  have hclause := Rule.group_rest_eq h.grouped.1 h'.grouped.1 hparams
  have hskip := Rule.skipTo_head h.isHead (block ++ .closing .curly :: rest)
  rw [hclause, Rule.skipTo_head h'.isHead] at hskip
  rw [(EStateM.Result.ok.inj hskip).2] at hclause
  exact List.append_cancel_right hclause

theorem TypeDecl.HeadIn.unmerged_iff (h : d.HeadIn w front head rest) : d.Unmerged w ↔ Unbroken head :=
  ⟨fun hall => hall _ _ _ h, fun hhead _ _ _ h' => h.head_eq h' ▸ hhead⟩

theorem Member.ClauseIn.unmerged_iff {m : Modifiers Extent} {name : String}
    (h : x.ClauseIn w front params clause block rest m name) : x.Unmerged w ↔ Unbroken clause :=
  ⟨fun hall => hall _ _ _ _ _ _ _ h, fun hclause _ _ _ _ _ _ _ h' => h.clause_eq h' ▸ hclause⟩

end OneHead

/-- What stands in front of the body of a declaration: one head, and whatever head stood there, the same
would be read. -/
def TypeDecl.Headed (w : List Symbol) (d : RawType) : Prop :=
  ∃ front head rest, d.HeadIn w front head rest ∧ (d.Unmerged w ↔ Unbroken head) ∧
    ∃ depth behind, ∀ c, IsHead c →
      Rule.typeDecl depth d.span.unread d.modifiers (typeText d.kind d.name c rest) = .ok d behind

def Member.Claused (w : List Symbol) (x : RawMember) : Prop :=
  ∃ front params clause block rest m name, x.ClauseIn w front params clause block rest m name ∧
    (x.Unmerged w ↔ Unbroken clause) ∧
    ∀ c, IsHead c →
      Rule.constructor x.span.unread m false (constructorText name params c block rest) = .ok x rest

theorem TypeDecl.ReadIn.headed {w : List Symbol} {d : RawType} (h : d.ReadIn w) : d.Headed w := by
  obtain ⟨depth, s, m, s₁, t, hs, hm, hd⟩ := h
  cases depth with
  | zero => cases hd
  | succ depth =>
    obtain ⟨kind, name, xs, s₃, s₄, hheader, hconstants, hmembers, rfl⟩ :=
      Rule.typeDeclOver_eq_ok_iff.1 hd
    obtain ⟨c, hc, rfl⟩ := Rule.header_eq_ok_iff.1 hheader
    obtain ⟨front, rfl, hfront⟩ := Rule.modifiers_run hm
    refine ⟨front, c, s₃, ?head, TypeDecl.HeadIn.unmerged_iff ?head, depth + 1, t, fun c' hc' => ?again⟩
    case head => exact ⟨hs, hfront, hc, rfl, rfl⟩
    case again =>
      exact Rule.typeDeclOver_eq_ok_iff.2
        ⟨kind, name, xs, s₃, s₄, Rule.header_eq_ok_iff.2 ⟨c', hc', rfl⟩, hconstants, hmembers, rfl⟩

theorem Member.ReadIn.claused {w : List Symbol} {kind : TypeKind} {owner : String} {x : RawMember}
    (h : x.ReadIn w kind owner) (hx : x.isFull) : x.Claused w := by
  obtain ⟨s, t, hs, hleaf⟩ := h
  obtain ⟨front, u, m, rfl, hfront, hu⟩ := Rule.leaf_eq_constructor hleaf hx
  obtain ⟨name, params, clause, block, rfl, hp, hc, hb, rfl⟩ := Rule.constructor_eq_ok_iff.1 hu
  refine ⟨front, params, clause, block, t, m, name, ?clause, Member.ClauseIn.unmerged_iff ?clause,
    fun c hc' => ?again⟩
  case clause => exact ⟨hs, hfront, ⟨hp, hb⟩, hc, rfl⟩
  case again =>
    exact Rule.constructor_eq_ok_iff.2 ⟨name, params, c, block, rfl, hp, hc', hb, rfl⟩

def CompilationUnit.Headed (w : List Symbol) (v : CompilationUnit Extent Extent) : Prop :=
  ∀ d ∈ v.types, ∀ e, d.Holds e → e.Headed w ∧ ∀ x ∈ e.members, x.isFull → x.Claused w

/-- In a text that is accepted, the head of a type goes from the name to the first brace outside
brackets, and so does the clause of a constructor from its parameters. Each declaration has one such
head, with a semicolon in it or without; whatever there is, it makes no difference to what is read. -/
theorem heads_of_parse {source : List Char} {u : SourceUnit} (h : parse source = .ok u) :
    ∃ ts v t, tokenize source = .ok ts ∧ Rule.file ts.symbols = .ok v t ∧
      u = (Reading.mk source ts ts.symbols).located v ∧ v.Headed ts.symbols := by
  obtain ⟨ts, v, t, hts, hfile, rfl⟩ := file_of_parse h
  refine ⟨ts, v, t, hts, hfile, rfl, fun d hd e he => ?_⟩
  have hread := Rule.file_readIn hfile hd he
  refine ⟨hread.headed, fun x hx hfull => ?_⟩
  obtain hleaf | ⟨_, rfl, _⟩ := hread.member hx
  · exact hleaf.claused hfull
  · cases hfull

open Written

/-- `class Box ; class item { Box ( ) ; item item ; { } }`. -/
def brokenBox : List Lexeme :=
  [.keyword .class, Name.box.lexeme, .mark .semicolon, .keyword .class, Name.item.lexeme,
    .opening .curly, Name.box.lexeme, .opening .round, .closing .round, .mark .semicolon,
    Name.item.lexeme, Name.item.lexeme, .mark .semicolon, .opening .curly, .closing .curly,
    .closing .curly]

theorem file_brokenBox : ∃ v, Rule.file (symbols brokenBox) = .ok v [] ∧
    v.types = [.mk .class "Box" ⟨[], [], none⟩ [.constructor ⟨[], [], none⟩ "Box" false ⟨10, 1⟩]
      ⟨11, 0⟩ ⟨16, 0⟩] :=
  ⟨_, by cbv, rfl⟩

theorem heads_of_parse_brokenBox : ∃ u, parse (write brokenBox) = .ok u ∧
    ∃ ts v t, tokenize (write brokenBox) = .ok ts ∧ Rule.file ts.symbols = .ok v t ∧
      u = (Reading.mk (write brokenBox) ts ts.symbols).located v ∧ v.Headed ts.symbols := by
  obtain ⟨v, hfile, _⟩ := file_brokenBox
  have hparse := parse_write_of_file hfile
  exact ⟨_, hparse, heads_of_parse hparse⟩

theorem not_unbroken_semicolon (c : List Symbol) : ¬ Unbroken (.mark .semicolon :: c) := by
  intro h
  cases h with
  | plain _ hp _ => simp at hp

/-- A head with a semicolon is read over, and so is a clause with one: what would be a declaration of
its own is lost in it. -/
theorem exists_parse_broken :
    ¬ (∀ source u ts v t, parse source = .ok u → tokenize source = .ok ts →
      Rule.file ts.symbols = .ok v t → ∀ d ∈ v.types, ∀ e, d.Holds e → e.Unmerged ts.symbols) ∧
    ¬ (∀ source u ts v t, parse source = .ok u → tokenize source = .ok ts →
      Rule.file ts.symbols = .ok v t → ∀ d ∈ v.types, ∀ e, d.Holds e → ∀ x ∈ e.members,
        x.Unmerged ts.symbols) := by
  obtain ⟨v, hfile, htypes⟩ := file_brokenBox
  have hparse := parse_write_of_file hfile
  have hsymbols : Tokens.symbols ⟨tokens .start brokenBox, Position.start.after (write brokenBox)⟩ =
      symbols brokenBox := symbol_tokens .start brokenBox
  constructor
  · intro h
    have hall := h _ _ _ v [] hparse (tokenize_write brokenBox) (by rw [hsymbols, hfile])
    rw [htypes, hsymbols] at hall
    refine not_unbroken_semicolon [.keyword .class, .identifier "item"] (hall _ List.mem_cons_self _ .self [] _
      (symbols (brokenBox.drop 6)) ?_)
    exact {
      text := List.suffix_refl _
      modifiers := .nil
      isHead := .plain rfl rfl (.plain rfl rfl (.plain rfl rfl .nil))
      span := rfl
      body := rfl }
  · intro h
    have hall := h _ _ _ v [] hparse (tokenize_write brokenBox) (by rw [hsymbols, hfile])
    rw [htypes, hsymbols] at hall
    refine not_unbroken_semicolon [.identifier "item", .identifier "item", .mark .semicolon]
      (hall _ List.mem_cons_self _ .self _ List.mem_cons_self [] [] _ []
        [.closing .curly] ⟨[], [], none⟩ "Box" ?_)
    exact {
      text := ⟨symbols (brokenBox.take 6), rfl⟩
      starts := .plain .nil
      grouped := ⟨.nil, .nil⟩
      isHead := .plain rfl rfl (.plain rfl rfl (.plain rfl rfl (.plain rfl rfl .nil)))
      eq := rfl }

end MemberOrder
