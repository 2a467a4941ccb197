import SceneScript.Grammar.Statement
import SceneScript.Token.Lexer

/-! From text to programs. -/

namespace SceneScript

/-- The program that a list of tokens forms. -/
def Program.ofTokens (ts : List Token) : Except ParseError Program := Grammar.statements ts

/-- The program that a text holds, or the first failure to read it. -/
def Program.ofSource (source : String) : Except ScriptError Program :=
  match Token.ofSource source with
  | .error e => .error (.lex e)
  | .ok ts =>
    match Program.ofTokens ts with
    | .error e => .error (.parse e)
    | .ok program => .ok program

theorem Program.ofSource_eq_ok {source : String} {p : Program} :
    Program.ofSource source = .ok p ↔
      ∃ ts, Token.ofSource source = .ok ts ∧ Program.ofTokens ts = .ok p := by
  unfold Program.ofSource
  cases Token.ofSource source with
  | error e => simp
  | ok ts =>
    cases h : Program.ofTokens ts with
    | error e => simp [h]
    | ok q => simp [h]

end SceneScript
