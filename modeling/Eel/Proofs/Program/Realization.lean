import Eel.Proofs.Program.Execution
import Eel.Proofs.Simplify.Reduction
import Eel.Proofs.Tree.Soundness

/-!
Programs made from sources do what the sources say.

A script that was read names its variables in lower case, and simplifying it
brings in no other name. So the code of every function does what the evaluator
says of the tree that it was made from.
-/

namespace Eel

namespace Prepared

variable {o : Options} {decl : FunctionDecl} {f : Prepared}

theorem isLowerName_mentions_of_parse {s : Bytes} {source : Source}
    (h : Source.parse s = .ok source) :
    ∀ x ∈ Node.mentionsAll source.script.body, Token.isLowerName x.name = true := by
  intro x hx
  obtain ⟨-, hparse⟩ := Source.parse_eq_ok h
  obtain ⟨n, hn, hx⟩ := Node.mem_mentionsAll.mp hx
  exact Node.isLowerName_mentions (Script.isRead_of_parse hparse n hn).wellFormed x hx

/-- A function that was read and simplified names its variables as they were
read. -/
theorem isLowerName_mentions_of_ofDecl (h : ofDecl o decl = .ok f) :
    ∀ x ∈ Node.mentionsAll f.body, Token.isLowerName x.name = true :=
  fun x hx => isLowerName_mentions_of_parse (reads_of_ofDecl h).parse x (mentionsAll_of_ofDecl h hx)

/-- A function that was read and simplified names its variables in lower
case. -/
theorem lower_mentions_of_ofDecl (h : ofDecl o decl = .ok f) :
    ∀ x ∈ Node.mentionsAll f.body, Text.lower x.name = x.name :=
  fun x hx => Token.lower_of_isLowerName (isLowerName_mentions_of_ofDecl h x hx)

end Prepared

namespace Program

/-- Compiled code does what the evaluator says. For all sources that can be read
and lowered, simplified or not, every function runs to its end from every store
and with every host, and what it leaves is the state that its statements are
evaluated to. -/
theorem realizes_sources {o : Options} {fs : List Prepared} {p : Program}
    (hread : o.functions.mapM (Prepared.ofDecl o) = .ok fs) (hlowered : ofPrepared fs = .ok p) :
    ∃ layout : Pool → Layout, p.Realizes fs layout := by
  refine realizes_of_ofPrepared hlowered fun f hf => ?_
  obtain ⟨decl, -, hdecl⟩ := Except.mapM_eq_ok hread f hf
  exact Prepared.lower_mentions_of_ofDecl hdecl

/-- A buffer that is changed in the steps of a loop, with an index that changes
too. -/
def bufferLoop : Options where
  pools := [⟨utf8 "frame", [utf8 "X"]⟩]
  functions := [⟨utf8 "step", utf8 "frame",
    utf8 "k = 2; loop(k*2, megabuf(i += x) += sin(i) % 0.5); y = x && i"⟩]

theorem realizes_bufferLoop : ∃ (fs : List Prepared) (p : Program) (layout : Pool → Layout),
    bufferLoop.functions.mapM (Prepared.ofDecl bufferLoop) = .ok fs ∧ ofPrepared fs = .ok p ∧
      p.Realizes fs layout := by
  have hok :
      (bufferLoop.functions.mapM (Prepared.ofDecl bufferLoop) >>= ofPrepared).isOk = true := by
    decide +kernel
  obtain ⟨p, hp⟩ := Except.exists_ok_of_isOk hok
  obtain ⟨fs, hread, hlowered⟩ := Except.bind_eq_ok.mp hp
  obtain ⟨layout, hlayout⟩ := realizes_sources hread hlowered
  exact ⟨fs, p, layout, hread, hlowered, hlayout⟩

end Program

end Eel
