import MemberOrder.Declaration.File
import MemberOrder.Proofs.Text.Place
import MemberOrder.Proofs.Token.Apart
/-! Texts written token by token, a space behind each token. They are cut into just these tokens
(`tokenize_write`), and what stands at consecutive tokens is their text (`unspaced_textAt`). -/
namespace MemberOrder

def unspaced (s : String) : String :=
  String.ofList (s.toList.filter (!isBlank ·))

namespace Written

/-- A token. Its text alone is cut into just this token. -/
structure Lexeme where
  symbol : Symbol
  text : List Char
  cut : scan text = ⟨[⟨some symbol, text⟩], none⟩

structure Name where
  text : String
  cut : scan text.toList = ⟨[⟨some (.identifier text), text.toList⟩], none⟩

namespace Name

def lexeme (n : Name) : Lexeme :=
  ⟨.identifier n.text, n.text.toList, n.cut⟩

def record : Name where
  text := "record"
  cut := scan_of_token (by decide +kernel)

def «sealed» : Name where
  text := "sealed"
  cut := scan_of_token (by decide +kernel)

def box : Name where
  text := "Box"
  cut := scan_of_token (by decide +kernel)

def item : Name where
  text := "item"
  cut := scan_of_token (by decide +kernel)

end Name

namespace Lexeme

def keyword (k : Keyword) : Lexeme where
  symbol := .keyword k
  text := k.name.toList
  cut := by
    cases k with
    | modifier w => cases w <;> exact scan_of_token (by decide +kernel)
    | _ => exact scan_of_token (by decide +kernel)

def mark (m : Mark) : Lexeme where
  symbol := .mark m
  text := m.name.toList
  cut := by cases m <;> exact scan_of_token (by decide +kernel)

def opening (b : Bracket) : Lexeme where
  symbol := .opening b
  text := b.opener.toList
  cut := by cases b <;> exact scan_of_token (by decide +kernel)

def closing (b : Bracket) : Lexeme where
  symbol := .closing b
  text := b.closer.toList
  cut := by cases b <;> exact scan_of_token (by decide +kernel)

@[simp] theorem symbol_keyword (k : Keyword) : (keyword k).symbol = .keyword k := rfl

@[simp] theorem symbol_mark (m : Mark) : (mark m).symbol = .mark m := rfl

@[simp] theorem symbol_opening (b : Bracket) : (opening b).symbol = .opening b := rfl

@[simp] theorem symbol_closing (b : Bracket) : (closing b).symbol = .closing b := rfl

@[simp] theorem symbol_name (n : Name) : n.lexeme.symbol = .identifier n.text := rfl

def pieces (l : Lexeme) : List Piece :=
  [⟨some l.symbol, l.text⟩, ⟨none, [' ']⟩]

end Lexeme

def symbols (ls : List Lexeme) : List Symbol :=
  ls.map (·.symbol)

def write (ls : List Lexeme) : List Char :=
  ls.flatMap fun l => l.text ++ [' ']

def textOf (ls : List Lexeme) : String :=
  unspaced (String.ofList (ls.flatMap (·.text)))

@[simp] theorem symbols_nil : symbols [] = [] := rfl

@[simp] theorem symbols_cons (l : Lexeme) (ls : List Lexeme) :
    symbols (l :: ls) = l.symbol :: symbols ls := rfl

@[simp] theorem symbols_append (ls ms : List Lexeme) :
    symbols (ls ++ ms) = symbols ls ++ symbols ms := List.map_append

theorem symbols_flatMap {α : Type} (f : α → List Lexeme) (xs : List α) :
    symbols (xs.flatMap f) = xs.flatMap fun x => symbols (f x) :=
  List.map_flatMap

@[simp] theorem length_symbols (ls : List Lexeme) : (symbols ls).length = ls.length :=
  List.length_map _

theorem write_append (ls ms : List Lexeme) : write (ls ++ ms) = write ls ++ write ms :=
  List.flatMap_append

theorem scan_write (ls : List Lexeme) : scan (write ls) = ⟨ls.flatMap Lexeme.pieces, none⟩ := by
  induction ls with
  | nil => exact scan_nil
  | cons l ls ih =>
    have hl : write (l :: ls) = l.text ++ ' ' :: write ls := by simp [write]
    rw [hl, scan_append_apart l.cut (.inr ⟨' ', write ls, rfl, by decide⟩), scan_blank (by decide), ih]
    rfl

theorem joined_pieces (ls : List Lexeme) : joined (ls.flatMap Lexeme.pieces) = write ls := by
  induction ls with
  | nil => rfl
  | cons l ls ih =>
    simp only [joined, write] at ih
    simp [joined, write, Lexeme.pieces, ih]

def tokens (p : Position) (ls : List Lexeme) : List Token :=
  tokensFrom p (ls.flatMap Lexeme.pieces)

@[simp] theorem tokens_cons (p : Position) (l : Lexeme) (ls : List Lexeme) : tokens p (l :: ls) =
    ⟨l.symbol, l.text, .between p (p.after l.text)⟩ :: tokens ((p.after l.text).after [' ']) ls := rfl

theorem tokens_append (p : Position) (ls ms : List Lexeme) :
    tokens p (ls ++ ms) = tokens p ls ++ tokens (p.after (write ls)) ms := by
  induction ls generalizing p with
  | nil => rfl
  | cons l ls ih =>
    have hl : write (l :: ls) = l.text ++ [' '] ++ write ls := by simp [write]
    rw [List.cons_append, tokens_cons, ih, tokens_cons, hl, Position.after_append,
      Position.after_append, List.cons_append]

@[simp] theorem length_tokens (p : Position) (ls : List Lexeme) : (tokens p ls).length = ls.length := by
  induction ls generalizing p with
  | nil => rfl
  | cons l ls ih => simp [tokens_cons, ih]

theorem symbol_tokens (p : Position) (ls : List Lexeme) :
    (tokens p ls).map (·.symbol) = symbols ls := by
  induction ls generalizing p with
  | nil => rfl
  | cons l ls ih => simp [ih]

theorem tokenize_write (ls : List Lexeme) :
    tokenize (write ls) = .ok ⟨tokens .start ls, Position.start.after (write ls)⟩ := by
  unfold tokenize
  simp only [scan_write, joined_pieces]
  rfl

def reading (ls : List Lexeme) : Reading :=
  ⟨write ls, ⟨tokens .start ls, Position.start.after (write ls)⟩, symbols ls⟩

theorem start_write (ls : List Lexeme) : Reading.start (write ls) = .ok (reading ls) := by
  rw [Reading.start, tokenize_write, reading, ← symbol_tokens .start ls]
  rfl

theorem parse_write_eq (ls : List Lexeme) : parse (write ls) = (reading ls).next.1 := by
  rw [parse, start_write]
  rfl

theorem parse_write_of_file {ls : List Lexeme} {v : CompilationUnit Extent Extent} {t : List Symbol}
    (h : Rule.file (symbols ls) = .ok v t) : parse (write ls) = .ok ((reading ls).located v) := by
  rw [parse_write_eq, Reading.next, reading, h]

theorem spanAt_tokens {pre post : List Lexeme} {l : Lexeme} {p : Position} :
    Tokens.spanAt ⟨tokens .start (pre ++ l :: post), p⟩ (post.length + 1) =
      .between (Position.start.after (write pre)) (Position.start.after (write pre ++ l.text)) := by
  rw [Position.after_append]
  simp [Tokens.spanAt, tokens_append]

theorem filter_squeezeFrom (pending : Bool) (s : List Char) :
    (squeezeFrom pending s).filter (!isBlank ·) = s.filter (!isBlank ·) := by
  induction s generalizing pending with
  | nil => rfl
  | cons c s ih =>
    have hspace : isBlank ' ' := by decide
    by_cases hc : isBlank c
    · simp [squeezeFrom, hc, ih]
    · cases pending with
      | false => simp [squeezeFrom, hc, ih]
      | true => simp [squeezeFrom, hc, hspace, ih]

theorem filter_squeeze (s : List Char) :
    (squeeze s).filter (!isBlank ·) = s.filter (!isBlank ·) := by
  rw [squeeze, filter_squeezeFrom]
  induction s with
  | nil => rfl
  | cons c s ih =>
    by_cases hc : isBlank c
    · simp [hc, ih]
    · simp [hc]

theorem unspaced_write (ls : List Lexeme) : unspaced (String.ofList (write ls)) = textOf ls := by
  have hspace : isBlank ' ' := by decide
  induction ls with
  | nil => rfl
  | cons l ls ih =>
    simp only [unspaced, textOf, write, String.toList_ofList, String.ofList_inj] at ih ⊢
    simp [hspace, ih]

theorem unspaced_textAt {pre t post : List Lexeme} {p : Position} {u : List Symbol} (ht : t ≠ []) :
    unspaced (Reading.textAt
      ⟨write (pre ++ (t ++ post)), ⟨tokens .start (pre ++ (t ++ post)), p⟩, u⟩
      ⟨(t ++ post).length, post.length⟩) = textOf t := by
  obtain ⟨l, t₁, hl⟩ := List.exists_cons_of_ne_nil ht
  obtain ⟨t₂, m, hm⟩ : ∃ t₂ m, t = t₂ ++ [m] :=
    ⟨t.dropLast, t.getLast ht, (List.dropLast_concat_getLast ht).symm⟩
  have hfirst : Tokens.spanAt ⟨tokens .start (pre ++ (t ++ post)), p⟩ (t ++ post).length =
      .between (Position.start.after (write pre)) (Position.start.after (write pre ++ l.text)) := by
    subst hl
    exact spanAt_tokens
  have hlast : Tokens.spanAt ⟨tokens .start (pre ++ (t ++ post)), p⟩ (post.length + 1) =
      .between (Position.start.after (write (pre ++ t₂)))
        (Position.start.after (write (pre ++ t₂) ++ m.text)) := by
    have hw : pre ++ (t ++ post) = (pre ++ t₂) ++ m :: post := by simp [hm]
    rw [hw]
    exact spanAt_tokens
  have hsource : write (pre ++ (t ++ post)) =
      write pre ++ ((write t₂ ++ m.text) ++ ' ' :: write post) := by
    rw [hm]
    simp [write]
  have hstop : write (pre ++ t₂) ++ m.text = write pre ++ (write t₂ ++ m.text) := by
    rw [write_append, List.append_assoc]
  have htext : unspaced (String.ofList (write t₂ ++ m.text)) = textOf t := by
    rw [← unspaced_write, hm]
    have hspace : isBlank ' ' := by decide
    simp [unspaced, write, hspace]
  unfold Reading.textAt Tokens.span
  rw [hfirst, hlast, Span.join_between, hstop, hsource, excerpt_append, ← htext]
  simp only [unspaced, String.toList_ofList, filter_squeeze]

end Written

end MemberOrder
