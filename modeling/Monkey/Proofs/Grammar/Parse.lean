import Monkey.Proofs.Grammar.Complete
import Monkey.Proofs.Lexing.Drawing

/-!
Parsing a text without errors is the same as deriving its tokens.
-/

namespace Monkey

variable {source : String} {p : Program}

theorem parse_of_derives (h : Derives .statements (tokens source.toList) p []) :
    parse source = (p, []) := by
  have hread : Program.read (tokens source.toList) = .ok p [] := h.reads.1 rfl
  rw [parse_eq, hread]
  rfl

theorem derives_of_parse (h : parse source = (p, [])) :
    Derives .statements (tokens source.toList) p [] := by
  rw [parse_eq] at h
  have herrors : (Program.read (tokens source.toList)).errors = [] := congrArg Prod.snd h
  obtain ⟨ss, hnode, -, hss⟩ := Program.read_finds _ herrors
  have hp : (Program.read (tokens source.toList)).node?.getD [] = p := congrArg Prod.fst h
  rw [hnode] at hp
  obtain rfl : ss = p := hp
  exact hss

/-- The parser accepts the texts of the grammar, each for its tree, and no
others. -/
theorem parse_eq_iff_derives (source : String) (p : Program) :
    parse source = (p, []) ↔ Derives .statements (tokens source.toList) p [] :=
  ⟨derives_of_parse, parse_of_derives⟩

end Monkey
