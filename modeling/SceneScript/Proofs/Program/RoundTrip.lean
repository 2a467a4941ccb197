import SceneScript.Proofs.Grammar.Places
import SceneScript.Proofs.Print.Statement

/-! Programs in print. The lines of a program are ended by newlines, and each is set in by so many
spaces for every block around it. The text is read back as the program, up to places. -/

namespace SceneScript

open Print

/-- A program that can be printed when fractional literals are written with the given digits. -/
def Program.Printable (spell : Number → List Char × List Char) (p : Program) : Prop :=
  Stmt.PrintableAll spell p

/-- A program in print, with blocks set in by `width`. -/
def Program.print (spell : Number → List Char × List Char) (width : Nat) (p : Program) : String :=
  String.ofList (Token.unlines ((Stmt.linesAll spell p 0).map (Line.text width)))

/-- The tokens of printed lines are those they are laid out as. -/
theorem Print.Lays.ofSource {width : Nat} (hwidth : 0 < width) {ls : List Line} {ts : List Token}
    (h : Lays 0 ls ts) :
    ∃ us, Token.ofSource (String.ofList (Token.unlines (ls.map (Line.text width)))) = .ok us ∧
      us.map (Token.mapPos Pos.forget) = ts := by
  have hlines : ∀ cs ∈ ls.map (Line.text width), '\n' ∉ cs := by
    rw [List.forall_mem_map]
    exact fun l hl => newline_notMem_line (h.fits l hl) width
  unfold Token.ofSource
  rw [String.toList_ofList, Token.lines_unlines hlines]
  exact h.read hwidth 1

/-- A printed program is read back, up to places. -/
theorem Program.ofSource_print {spell : Number → List Char × List Char} {width : Nat}
    {p : Program} (hwidth : 0 < width) (hp : p.Printable spell) :
    ∃ q, Program.ofSource (p.print spell width) = .ok q ∧
      q.mapPos Pos.forget = p.mapPos Pos.forget := by
  obtain ⟨ts, hbehind, _, hitems⟩ := derived_items (derived_all p hp)
  obtain ⟨us, hus, hmap⟩ := hbehind.lays.ofSource hwidth
  have hts : Program.ofTokens (us.map (Token.mapPos Pos.forget)) = .ok (p.mapPos Pos.forget) := by
    rw [hmap]
    exact hitems.statements
  obtain ⟨q, hq, hplaces⟩ := Program.ofTokens_map_eq_ok.mp hts
  exact ⟨q, Program.ofSource_eq_ok.mpr ⟨us, hus, hq⟩, hplaces⟩

/-- A procedure with branches and a loop, and a call of it. -/
def Program.sample : Program :=
  let origin : Pos := ⟨0, 0⟩
  let a := Expr.ident origin "a"
  let b := Expr.ident origin "b"
  let one := Expr.int origin (.ofNat 1)
  let fraction := Expr.float origin (Number.read "2.5")
  let sub := Expr.binary origin (.arith .sub)
  let product := Expr.binary origin (.arith .mul) (.unary origin .neg a) fraction
  [.proc origin "f" [⟨"a", "int"⟩, ⟨"b", "real"⟩]
      [.cond origin
        (.binary origin (.logic .and) (.unary origin .not (.binary origin (.compare .lt) a b))
          (.binary origin (.compare .eq) product (.unary origin .neg (sub one a))))
        [.expr origin (.call origin "say" [.str origin "it's", .str origin "\""])]
        (.elif (.bool origin true) [.var origin "c" (sub (sub a b) one)]
          (.otherwise [.loop origin "i" one a [.ret origin (sub a (sub b (.ident origin "i")))]]))],
    .assign origin "x" (.call origin "f" [one, fraction])]

/-- The digits of the one fractional literal in the sample. -/
def Program.sampleDigits (_ : Number) : List Char × List Char := (['2'], ['5'])

/-- Three blocks closed by one line, parentheses that are needed and none else, and both quotes. -/
theorem Program.ofSource_print_sample :
    Program.sample.print Program.sampleDigits 2 =
      "proc f(a: int, b: real):\n" ++
      "  if not (a < b) and -a * 2.5 == -(1 - a):\n" ++
      "    say(\"it's\", '\"')\n" ++
      "  elif true:\n" ++
      "    var c = a - b - 1\n" ++
      "  else:\n" ++
      "    for i in range(1, a):\n" ++
      "      return a - (b - i)\n" ++
      "x = f(1, 2.5)\n" ∧
    ∃ q, Program.ofSource (Program.sample.print Program.sampleDigits 2) = .ok q ∧
      q.mapPos Pos.forget = Program.sample := by
  have hone : (Expr.int ⟨0, 0⟩ (.ofNat 1)).Printable Program.sampleDigits := ⟨1, by decide, rfl⟩
  have hfraction : (Expr.float ⟨0, 0⟩ (Number.read "2.5")).Printable Program.sampleDigits :=
    ⟨by decide, rfl⟩
  have hquotes : Word.Proper (.str "it's") ∧ Word.Proper (.str "\"") := by decide
  have ha : IsName "a" := by decide
  have hb : IsName "b" := by decide
  have hi : IsName "i" := by decide
  refine ⟨by decide +kernel, Program.ofSource_print (by decide) ?_⟩
  refine ⟨⟨by decide, by decide, List.cons_ne_nil _ _, ?_, trivial⟩,
    ⟨by decide, by decide, hone, hfraction, trivial⟩, trivial⟩
  refine ⟨⟨⟨ha, hb⟩, ⟨ha, hfraction⟩, hone, ha⟩, ⟨List.cons_ne_nil _ _, ?_, trivial⟩, ?_⟩
  · exact ⟨by decide, hquotes.1, hquotes.2, trivial⟩
  · refine ⟨trivial, ⟨List.cons_ne_nil _ _, ⟨by decide, ⟨ha, hb⟩, hone⟩, trivial⟩, ?_⟩
    exact ⟨List.cons_ne_nil _ _,
      ⟨hi, ⟨hone, ha⟩, List.cons_ne_nil _ _, ⟨ha, hb, hi⟩, trivial⟩, trivial⟩

end SceneScript
