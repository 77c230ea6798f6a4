import MemberOrder.Proofs.Declaration.Bodies
import MemberOrder.Proofs.Written.Lexeme
/-! Reading over a group in brackets, whatever there is to read: where there is a group it is read up to its own
closer, and where there is none the refusal is at the first closer that is wrong, or else at the innermost bracket
that stays open. Main statement: `Rule.group_laws`. -/
namespace MemberOrder

/-- Balanced but for brackets that are still open. No closer is wrong yet. -/
inductive BalancedSoFar : List Symbol → Prop
  | balanced {s} (hs : Balanced s) : BalancedSoFar s
  | opening {c b s} (hc : Balanced c) (hs : BalancedSoFar s) : BalancedSoFar (c ++ .opening b :: s)

/-- The first closer that is not for a group in front of it is wrong: another one is required there, or none. -/
inductive Breaks (s : List Symbol) : Prop
  | wrong {p c u b b'} (hs : s = p ++ .opening b :: (c ++ .closing b' :: u)) (hp : BalancedSoFar p)
      (hc : Balanced c) (hb : b' ≠ b)
  | stray {c u b} (hs : s = c ++ .closing b :: u) (hc : Balanced c)

section

variable {c s : List Symbol}

theorem Balanced.append_soFar (hc : Balanced c) (hs : BalancedSoFar s) : BalancedSoFar (c ++ s) := by
  cases hs with
  | balanced hs => exact .balanced (hc.append hs)
  | opening hd hs =>
    rw [← List.append_assoc]
    exact .opening (hc.append hd) hs

theorem Balanced.append_breaks (hc : Balanced c) (hs : Breaks s) : Breaks (c ++ s) := by
  cases hs with
  | @wrong p d u b b' hs hp hd hb =>
    exact .wrong (p := c ++ p) (by rw [hs, List.append_assoc]) (hc.append_soFar hp) hd hb
  | @stray d u b hs hd => exact .stray (c := c ++ d) (by rw [hs, List.append_assoc]) (hc.append hd)

theorem Balanced.singleton {x : Symbol} (hx : x.isPlain) : Balanced [x] :=
  .plain hx .nil

theorem Balanced.bracketed {b : Bracket} (hc : Balanced c) : Balanced (.opening b :: (c ++ [.closing b])) :=
  .group hc .nil

theorem BalancedSoFar.balanced_or (hs : BalancedSoFar s) :
    Balanced s ∨ ∃ p b c, s = p ++ .opening b :: c ∧ BalancedSoFar p ∧ Balanced c := by
  induction hs with
  | balanced hs => exact .inl hs
  | @opening c b s hc _ ih =>
    obtain hs | ⟨p, b', d, rfl, hp, hd⟩ := ih
    · exact .inr ⟨c, b, s, rfl, .balanced hc, hs⟩
    · exact .inr ⟨c ++ .opening b :: p, b', d, by simp, .opening hc hp, hd⟩

end

theorem balancedSoFar_or_breaks (s : List Symbol) : BalancedSoFar s ∨ Breaks s := by
  induction hn : s.length using Nat.strongRecOn generalizing s with
  | ind n ih =>
    subst hn
    cases s with
    | nil => exact .inl (.balanced .nil)
    | cons x s =>
      have hlt : s.length < (x :: s).length := by simp
      by_cases hx : x.isPlain
      · have hone := Balanced.singleton hx
        exact (ih _ hlt s rfl).imp hone.append_soFar hone.append_breaks
      cases x with
      | opening b =>
        obtain hs | hs := ih _ hlt s rfl
        · exact .inl (.opening .nil hs)
        cases hs with
        | @wrong p c u b₁ b₂ hs hp hc hb =>
          exact .inr (.wrong (p := .opening b :: p) (by rw [hs, List.cons_append]) (.opening .nil hp) hc hb)
        | @stray c u b' hs hc =>
          by_cases hb : b' = b
          · -- the closer is for the bracket at hand, and what is behind the group decides
            subst hb
            have hgroup : Symbol.opening b' :: s = .opening b' :: (c ++ [.closing b']) ++ u := by simp [hs]
            have hlt' : u.length < (Symbol.opening b' :: s).length := by simp [hs]; omega
            rw [hgroup]
            exact (ih _ hlt' u rfl).imp hc.bracketed.append_soFar hc.bracketed.append_breaks
          · exact .inr (.wrong (p := []) (by rw [hs, List.nil_append]) (.balanced .nil) hc hb)
      | closing b => exact .inr (.stray (c := []) rfl .nil)
      | keyword | identifier | number | string | character | mark | operator => exact absurd rfl hx

theorem Balanced.eq_group {b : Bracket} {s : List Symbol} (h : Balanced (.opening b :: s)) :
    ∃ c t, s = c ++ .closing b :: t ∧ Balanced c := by
  cases h with
  | plain hx _ => simp [Symbol.isPlain] at hx
  | @group _ c t hc _ => exact ⟨c, t, rfl, hc⟩

def BeginsBalanced (s : List Symbol) : Prop :=
  ∃ c, c ≠ [] ∧ c <+: s ∧ Balanced c

namespace Rule

variable {b : Bracket} {s : List Symbol}

theorem group_of_prefix {c : List Symbol} (hne : c ≠ []) (hc : Balanced c) (hpre : c <+: .opening b :: s) :
    ∃ d t v, c = .opening b :: (d ++ .closing b :: t) ∧ s = d ++ .closing b :: (t ++ v) ∧
      group b (.opening b :: s) = .ok () (t ++ v) := by
  obtain ⟨x, c, rfl⟩ := List.exists_cons_of_ne_nil hne
  obtain ⟨rfl, v, rfl⟩ := List.cons_prefix_cons.1 hpre
  obtain ⟨d, t, rfl, hd⟩ := hc.eq_group
  have hs : d ++ .closing b :: t ++ v = d ++ .closing b :: (t ++ v) := by simp
  exact ⟨d, t, v, rfl, hs, group_eq_ok_iff.2 ⟨d, by rw [hs], hd⟩⟩

theorem group_ok_iff_beginsBalanced :
    (∃ u, group b (.opening b :: s) = .ok () u) ↔ BeginsBalanced (.opening b :: s) := by
  constructor
  · rintro ⟨u, hu⟩
    obtain ⟨c, hs, hc⟩ := group_eq_ok_iff.1 hu
    exact ⟨.opening b :: (c ++ [.closing b]), List.cons_ne_nil _ _, ⟨u, by simp [hs]⟩, hc.bracketed⟩
  · rintro ⟨c, hne, hpre, hc⟩
    obtain ⟨_, t, v, _, _, hu⟩ := group_of_prefix hne hc hpre
    exact ⟨t ++ v, hu⟩

theorem shortest_of_group {u : List Symbol} (h : group b (.opening b :: s) = .ok () u) :
    ∃ d, s = d ++ .closing b :: u ∧ Balanced d ∧ ∀ c, c ≠ [] → c <+: .opening b :: s → Balanced c →
      .opening b :: (d ++ [.closing b]) <+: c := by
  obtain ⟨d, hs, hd⟩ := group_eq_ok_iff.1 h
  obtain rfl := (List.cons.inj hs).2
  refine ⟨d, rfl, hd, fun c hne hpre hc => ?_⟩
  obtain ⟨d', t, v, rfl, hs', hu'⟩ := group_of_prefix hne hc hpre
  rw [h] at hu'
  cases hu'
  rw [List.append_cancel_right hs']
  exact ⟨t, by simp⟩

theorem skim_soFar {κ : Type} (outside : κ → List Symbol → Outside κ) (k : κ) {p : List Symbol}
    (hp : BalancedSoFar p) (o : Opened) (os : List Opened) (b : Bracket) (u : List Symbol) :
    ∃ os', skim outside k (o :: os) (p ++ .opening b :: u) = skim outside k (⟨b, u.length + 1⟩ :: os') u := by
  induction hp generalizing o os with
  | balanced hc => exact ⟨o :: os, by rw [skim_balanced outside k hc, skim_opening]⟩
  | @opening c b' p hc _ ih =>
    obtain ⟨os', h⟩ := ih ⟨b', (p ++ .opening b :: u).length + 1⟩ (o :: os)
    refine ⟨os', ?_⟩
    rw [List.append_assoc, List.cons_append, skim_balanced outside k hc, skim_opening, h]

theorem group_soFar {p u : List Symbol} {b' : Bracket} (hp : BalancedSoFar p)
    (hs : .opening b :: s = p ++ .opening b' :: u) (hnone : ¬ BeginsBalanced (.opening b :: s)) :
    ∃ os, group b (.opening b :: s) = skim (fun _ _ => .stop) () (⟨b', u.length + 1⟩ :: os) u := by
  -- nothing balanced stands in front of the first bracket that stays open
  have hempty {c v : List Symbol} (hc : Balanced c) (hcv : .opening b :: s = c ++ v) : c = [] := by
    by_contra hne
    exact hnone ⟨c, hne, ⟨v, hcv.symm⟩, hc⟩
  rw [group, if_pos rfl]
  cases hp with
  | balanced hc =>
    obtain rfl := hempty hc hs
    obtain ⟨hb, rfl⟩ := List.cons.inj hs
    cases hb
    exact ⟨[], rfl⟩
  | @opening c b₁ p hc hp =>
    rw [List.append_assoc] at hs
    obtain rfl := hempty hc hs
    obtain ⟨-, rfl⟩ := List.cons.inj hs
    exact skim_soFar _ _ hp _ [] b' u

theorem group_wrong {p c u : List Symbol} {b₁ b₂ : Bracket} (hp : BalancedSoFar p) (hc : Balanced c) (hb : b₂ ≠ b₁)
    (hs : .opening b :: s = p ++ .opening b₁ :: (c ++ .closing b₂ :: u))
    (hnone : ¬ BeginsBalanced (.opening b :: s)) :
    group b (.opening b :: s) =
      .error ⟨.unexpected (.symbol (.closing b₁)) (some (.closing b₂)), u.length + 1⟩ u := by
  obtain ⟨os, h⟩ := group_soFar hp hs hnone
  rw [h, skim_balanced _ _ hc]
  simp [skim, hb]

theorem group_unclosed {p c : List Symbol} {b₁ : Bracket} (hp : BalancedSoFar p) (hc : Balanced c)
    (hs : .opening b :: s = p ++ .opening b₁ :: c) (hnone : ¬ BeginsBalanced (.opening b :: s)) :
    group b (.opening b :: s) = .error ⟨.unclosed (.opening b₁), c.length + 1⟩ [] := by
  obtain ⟨os, h⟩ := group_soFar hp hs hnone
  have hend := skim_balanced (fun _ _ => Outside.stop) () hc ⟨b₁, c.length + 1⟩ os []
  rw [List.append_nil] at hend
  rw [h, hend, skim]

end Rule

/-- `o` opens a bracket of the sort `b`, and of those still open behind `inside` it was opened last. -/
structure Token.IsInnermost (o : Token) (b : Bracket) (before inside : List Token) : Prop where
  soFar : BalancedSoFar (before.map (·.symbol))
  opens : o.symbol = .opening b
  balanced : Balanced (inside.map (·.symbol))

/-- Among tokens, `x` closes a bracket of the sort `b'` where the innermost open one is `b`. -/
def Token.ClosesWrongly (x : Token) (b b' : Bracket) (g behind : List Token) : Prop :=
  b' ≠ b ∧ x.symbol = .closing b' ∧
    ∃ before o inside, g = before ++ o :: (inside ++ x :: behind) ∧ o.IsInnermost b before inside

/-- Among tokens, `o` is the innermost bracket that is open at their end. -/
def Token.StaysOpen (o : Token) (b : Bracket) (g : List Token) : Prop :=
  ∃ before inside, g = before ++ o :: inside ∧ o.IsInnermost b before inside

def Tokens.errorAt (ts : Tokens) (e : Refusal) : ParseError :=
  ⟨e.cause, ts.spanAt e.unread⟩

theorem Tokens.spanAt_of_token {ts : Tokens} {pre post : List Token} {t : Token}
    (hl : ts.list = pre ++ t :: post) : ts.spanAt (post.length + 1) = t.span :=
  spanAt_of_head? (g := [t]) hl rfl

theorem exists_token_of_symbols {g : List Token} {p u : List Symbol} {x : Symbol}
    (h : g.map (·.symbol) = p ++ x :: u) : ∃ before t behind, g = before ++ t :: behind ∧
      before.map (·.symbol) = p ∧ t.symbol = x ∧ behind.map (·.symbol) = u := by
  obtain ⟨before, g', rfl, hbefore, hg'⟩ := List.map_eq_append_iff.1 h
  obtain ⟨t, behind, rfl, ht, hbehind⟩ := List.map_eq_cons_iff.1 hg'
  exact ⟨before, t, behind, rfl, hbefore, ht, hbehind⟩

theorem closesWrongly_or_staysOpen {g : List Token} {b : Bracket} {s : List Symbol}
    (hg : g.map (·.symbol) = .opening b :: s) (hnone : ¬ BeginsBalanced (.opening b :: s)) :
    (∃ x b₁ b₂ behind, Token.ClosesWrongly x b₁ b₂ g behind) ∨ ∃ o b₁, Token.StaysOpen o b₁ g := by
  obtain hsoFar | hbreaks := balancedSoFar_or_breaks (.opening b :: s)
  · obtain hs | ⟨p, b₁, c, hs, hp, hc⟩ := hsoFar.balanced_or
    · exact absurd ⟨_, List.cons_ne_nil _ _, List.prefix_rfl, hs⟩ hnone
    · obtain ⟨before, o, inside, rfl, rfl, ho, rfl⟩ := exists_token_of_symbols (hg.trans hs)
      exact .inr ⟨o, b₁, before, inside, rfl, hp, ho, hc⟩
  cases hbreaks with
  | @wrong p c u b₁ b₂ hs hp hc hb =>
    obtain ⟨before, o, g', rfl, rfl, ho, hg'⟩ := exists_token_of_symbols (hg.trans hs)
    obtain ⟨inside, x, behind, rfl, rfl, hx, rfl⟩ := exists_token_of_symbols hg'
    exact .inl ⟨x, b₁, b₂, behind, hb, hx, before, o, inside, rfl, hp, ho, hc⟩
  | @stray c u b' hs hc =>
    cases c with
    | nil => cases hs
    | cons y c => exact absurd ⟨_, List.cons_ne_nil y c, ⟨_, hs.symm⟩, hc⟩ hnone

namespace Rule

/-- At an opening bracket a group is read if something balanced begins there, and it is the shortest such stretch.
If none does, the first closer that is wrong is refused in place of the one required, with all behind it still to
be read; and if all ends before that, so is the innermost open bracket as unclosed. -/
theorem group_laws {ts : Tokens} {pre g : List Token} {b : Bracket} {s : List Symbol} (hts : ts.list = pre ++ g)
    (hg : g.map (·.symbol) = .opening b :: s) :
    ((∃ u, group b (.opening b :: s) = .ok () u) ↔ BeginsBalanced (.opening b :: s)) ∧
    (∀ u, group b (.opening b :: s) = .ok () u → ∃ d, s = d ++ .closing b :: u ∧ Balanced d ∧
      ∀ c, c ≠ [] → c <+: .opening b :: s → Balanced c → .opening b :: (d ++ [.closing b]) <+: c) ∧
    (¬ BeginsBalanced (.opening b :: s) →
      (∀ x b₁ b₂ behind, Token.ClosesWrongly x b₁ b₂ g behind →
        ∃ e, group b (.opening b :: s) = .error e (behind.map (·.symbol)) ∧
          ts.errorAt e = ⟨.unexpected (.symbol (.closing b₁)) (some (.closing b₂)), x.span⟩) ∧
      ((∀ x b₁ b₂ behind, ¬ Token.ClosesWrongly x b₁ b₂ g behind) → ∃ o b₁, Token.StaysOpen o b₁ g) ∧
      ∀ o b₁, Token.StaysOpen o b₁ g → ∃ e, group b (.opening b :: s) = .error e [] ∧
        ts.errorAt e = ⟨.unclosed (.opening b₁), o.span⟩) := by
  refine ⟨group_ok_iff_beginsBalanced, fun u hu => shortest_of_group hu, fun hnone => ⟨?_, ?_, ?_⟩⟩
  · rintro x b₁ b₂ behind ⟨hb, hx, before, o, inside, rfl, ho⟩
    have hs : .opening b :: s = before.map (·.symbol) ++ .opening b₁ ::
        (inside.map (·.symbol) ++ .closing b₂ :: behind.map (·.symbol)) := by simp [← hg, ho.opens, hx]
    refine ⟨_, group_wrong ho.soFar ho.balanced hb hs hnone, ?_⟩
    have hplace : ts.list = (pre ++ before ++ o :: inside) ++ x :: behind := by simp [hts]
    rw [Tokens.errorAt, List.length_map, Tokens.spanAt_of_token hplace]
  · intro hright
    obtain ⟨x, b₁, b₂, behind, hx⟩ | hopen := closesWrongly_or_staysOpen hg hnone
    · exact absurd hx (hright x b₁ b₂ behind)
    · exact hopen
  · rintro o b₁ ⟨before, inside, rfl, ho⟩
    have hs : .opening b :: s = before.map (·.symbol) ++ .opening b₁ :: inside.map (·.symbol) := by
      simp [← hg, ho.opens]
    refine ⟨_, group_unclosed ho.soFar ho.balanced hs hnone, ?_⟩
    have hplace : ts.list = (pre ++ before) ++ o :: inside := by simp [hts]
    rw [Tokens.errorAt, List.length_map, Tokens.spanAt_of_token hplace]

open Written

/-- In `{ [ ) ;` it is the `)` that is refused, in place of the `]` for the bracket opened last. -/
theorem group_laws_wrongCloser : ∃ ts x e,
    tokenize (write [.opening .curly, .opening .square, .closing .round, .mark .semicolon]) = .ok ts ∧
      ts.list[2]? = some x ∧ group .curly ts.symbols = .error e [.mark .semicolon] ∧
        ts.errorAt e = ⟨.unexpected (.symbol (.closing .square)) (some (.closing .round)), x.span⟩ := by
  have hgroup : ¬ BeginsBalanced [.opening .curly, .opening .square, .closing .round, .mark .semicolon] := by
    rw [← group_ok_iff_beginsBalanced]
    simp [group, skim]
  let ls : List Lexeme := [.opening .curly, .opening .square, .closing .round, .mark .semicolon]
  let ts : Tokens := ⟨tokens .start ls, Position.start.after (write ls)⟩
  have hsymbols : ts.list.map (·.symbol) = symbols ls := symbol_tokens .start ls
  obtain ⟨-, -, hnone⟩ := group_laws (List.nil_append ts.list).symm hsymbols
  obtain ⟨e, he, hplace⟩ := (hnone hgroup).1 _ .square .round [_]
    ⟨by decide, rfl, [_], _, [], rfl, .opening .nil (.balanced .nil), rfl, .nil⟩
  exact ⟨ts, _, e, tokenize_write ls, rfl, he, hplace⟩

end Rule

end MemberOrder
