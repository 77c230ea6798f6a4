import MemberOrder.Proofs.Order.Sorted
import MemberOrder.Proofs.Written.Lexeme
/-! What is in a literal, what an operator is and how a text is laid out make no difference to what is
read and to what is found. Main statement: `answers_agree_of_symbols_eq`. -/
namespace MemberOrder

/-- Both texts are accepted, with trees that differ in places and in the text of types alone, and the
same is found in both, in the same order. -/
def AcceptedAlike (s t : String) : Prop :=
  ∃ u v, parse s.toList = .ok u ∧ parse t.toList = .ok v ∧
    u.map (fun _ => ()) (fun _ => ()) = v.map (fun _ => ()) (fun _ => ()) ∧
    ∀ path, ∃ vs ws, checkSource path s = .ok vs ∧ checkSource path t = .ok ws ∧
      vs.map Violation.told = ws.map Violation.told

def RefusedAlike (s t : String) : Prop :=
  ∃ d e, parse s.toList = .error d ∧ parse t.toList = .error e ∧
    d.cause.message = e.cause.message ∧ d.cause.expected? = e.cause.expected? ∧
    d.cause.found? = e.cause.found?

/-- Texts whose tokens agree, one by one, in their sort and, if they are names, in the name: what a
number, a string, a character or an operator is, and where tokens stand, is left open. -/
theorem answers_agree_of_symbols_eq {s t : String} {ts us : Tokens}
    (hs : tokenize s.toList = .ok ts) (ht : tokenize t.toList = .ok us)
    (h : ts.symbols = us.symbols) : AcceptedAlike s t ∨ RefusedAlike s t := by
  have hparse := parse_of_tokenize hs
  have hparse' := parse_of_tokenize ht
  rw [← h] at hparse'
  unfold Reading.next at hparse hparse'
  cases hfile : Rule.file ts.symbols with
  | ok u rest =>
    rw [hfile] at hparse hparse'
    have htree (r : Reading) :
        (r.located u).map (fun _ => ()) (fun _ => ()) = u.map (fun _ => ()) (fun _ => ()) := by
      rw [Reading.located, CompilationUnit.map_map]
    have hsame := (htree ⟨s.toList, ts, ts.symbols⟩).trans (htree ⟨t.toList, us, ts.symbols⟩).symm
    exact .inl ⟨_, _, hparse, hparse', hsame, fun path =>
      ⟨_, _, checkSource_of_parse hparse path, checkSource_of_parse hparse' path,
        CompilationUnit.told_congr hsame⟩⟩
  | error e rest =>
    rw [hfile] at hparse hparse'
    exact .inr ⟨_, _, hparse, hparse', rfl, rfl, rfl⟩

open Written

/-- `class Box { Box ( ) { } item item = … ; }`. -/
def boxWith (l : Lexeme) : List Lexeme :=
  [.keyword .class, Name.box.lexeme, .opening .curly, Name.box.lexeme, .opening .round,
    .closing .round, .opening .curly, .closing .curly, Name.item.lexeme, Name.item.lexeme,
    .mark .equals, l, .mark .semicolon, .closing .curly]

def brace : Lexeme := ⟨.string, ['"', '}', '"'], scan_of_token (by decide +kernel)⟩

def block : Lexeme :=
  ⟨.string, ['"', '"', '"', ';', '"', '"', '"'], scan_of_token (by decide +kernel)⟩

theorem answers_agree_boxWith : ∃ ts us,
    tokenize (String.ofList (write (boxWith brace))).toList = .ok ts ∧
    tokenize (String.ofList (write (boxWith block))).toList = .ok us ∧ ts.symbols = us.symbols ∧
    AcceptedAlike (String.ofList (write (boxWith brace))) (String.ofList (write (boxWith block))) := by
  have htokens (l : Lexeme) : tokenize (String.ofList (write (boxWith l))).toList =
      .ok ⟨tokens .start (boxWith l), Position.start.after (write (boxWith l))⟩ := by
    rw [String.toList_ofList, tokenize_write]
  have hsymbols : Tokens.symbols ⟨tokens .start (boxWith brace), Position.start.after (write (boxWith brace))⟩ =
      Tokens.symbols ⟨tokens .start (boxWith block), Position.start.after (write (boxWith block))⟩ := by
    simp only [Tokens.symbols, symbol_tokens]
    rfl
  have hagree := answers_agree_of_symbols_eq (htokens brace) (htokens block) hsymbols
  obtain ⟨v, hfile⟩ : ∃ v, Rule.file (symbols (boxWith brace)) = .ok v [] := ⟨_, by cbv⟩
  have hparse : parse (String.ofList (write (boxWith brace))).toList =
      .ok ((reading (boxWith brace)).located v) := by
    rw [String.toList_ofList, parse_write_eq, Reading.next, reading, hfile]
  refine ⟨_, _, htokens brace, htokens block, hsymbols, hagree.resolve_right ?_⟩
  intro hrefused
  obtain ⟨d, _, hd, _⟩ := hrefused
  rw [hparse] at hd
  cases hd

end MemberOrder
