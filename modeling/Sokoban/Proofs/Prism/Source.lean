import Sokoban.Proofs.Prism.Sections

/-! # Reading written models

A written model is read section by section.  Gaps between sections and lines are no tokens, so the
tokens of the text are those of its parts one after another (`lex_render`), and the loops of the
grammar end where the next section begins.

A variable has no word in front of its declaration, so the loop over variables has to tell a name
from what may follow: a bracket, with which commands begin, or the word that ends the module
(`EndsVariables`).  A constant, a command and the rewards have fixed beginnings.

The comment is taken off line by line before the rest is read as tokens.  It may contain anything;
it only must not end in an empty line, as an empty line is what ends it.
-/

namespace Sokoban

/-- What is to be read off a model: all that its text says, with literals in their shortest forms.
-/
def Model.source (m : Model) : Prism.Grammar.Source where
  comment := m.comment?.getD ""
  label := ("goal_reached", m.goal.plain)
  constants := m.constants.map Constant.plain
  name := "Player"
  vars := m.vars.map Variable.plain
  commands := m.commands.map Command.plain
  rewards := m.rewards

/-- A model all of whose parts can be read. -/
structure Model.Clear (m : Model) : Prop where
  goal : m.goal.Clear
  constants : ∀ k ∈ m.constants, Prism.IsName k.name
  vars : ∀ x ∈ m.vars, x.Clear
  commands : ∀ c ∈ m.commands, c.Clear

namespace Prism

open Reader

variable {m : Model} {text : String} {ls : List (List Char)}

/-- The tokens of the rewards section, or none. -/
def rewardsTokens (given : Bool) : List Token :=
  if given then lex "rewards true : 1; endrewards".toList else []

/-- The tokens of a model behind its comment. -/
def modelTokens (m : Model) : List Token :=
  lex "mdp".toList ++ (labelTokens m.goal ++ (m.constants.flatMap constantTokens ++
    (lex "module".toList ++ ([.word "Player".toList] ++ (m.vars.flatMap variableTokens ++
      (m.commands.flatMap commandTokens ++ (lex "endmodule".toList ++ rewardsTokens m.rewards)))))))

/-! ## Tokens -/

/-- Texts on lines of their own have the tokens of the texts. -/
theorem lex_lines (texts : List String) :
    lex ("\n".intercalate texts).toList = texts.flatMap (lex ·.toList) := by
  rw [String.toList_intercalate, lex_intercalate (by decide) (by decide), List.flatMap_map]

/-- Indenting a text adds no token. -/
theorem lex_indent (text : String) : lex (indent ++ text).toList = lex text.toList := by
  rw [String.toList_append, lex_gap_append (by decide)]

/-- The tokens of a module are those of its variables and its commands, between the words that begin
and end it. -/
theorem lex_moduleText (h : m.Clear) :
    lex (moduleText "Player" m.vars m.commands).toList =
      lex "module".toList ++ ([.word "Player".toList] ++ (m.vars.flatMap variableTokens ++
        (m.commands.flatMap commandTokens ++ lex "endmodule".toList))) := by
  have hvars : (m.vars.map (indent ++ variableDeclaration ·)).flatMap (lex ·.toList) =
      m.vars.flatMap variableTokens := by
    rw [List.flatMap_map]
    exact List.flatMap_congr fun x hx => (lex_indent _).trans (lex_variable (h.vars x hx))
  have hcommands : (m.commands.map (indent ++ command ·)).flatMap (lex ·.toList) =
      m.commands.flatMap commandTokens := by
    rw [List.flatMap_map]
    exact List.flatMap_congr fun c hc => (lex_indent _).trans (lex_command (h.commands c hc))
  rw [moduleText, lex_lines, List.flatMap_append, List.flatMap_append, List.flatMap_append,
    List.flatMap_append, hvars, hcommands]
  simp only [List.flatMap_cons, List.flatMap_nil, List.append_nil, List.append_assoc]
  rfl

/-- Constants are written without a gap where there are none. -/
theorem lex_constants (h : ∀ k ∈ m.constants, IsName k.name) :
    (if m.constants.isEmpty then [] else
      ["\n".intercalate (m.constants.map constantDeclaration)]).flatMap (lex ·.toList) =
        m.constants.flatMap constantTokens := by
  have hlines : lex ("\n".intercalate (m.constants.map constantDeclaration)).toList =
      m.constants.flatMap constantTokens := by
    rw [lex_lines, List.flatMap_map]
    exact List.flatMap_congr fun k hk => lex_constant (h k hk)
  split
  next hempty => rw [List.isEmpty_iff.mp hempty, List.flatMap_nil, List.flatMap_nil]
  next => rw [List.flatMap_singleton, hlines]

/-- The rewards are written where steps are rewarded. -/
theorem lex_rewards (given : Bool) :
    (if given then [rewards] else []).flatMap (lex ·.toList) = rewardsTokens given := by
  have htext : lex rewards.toList = lex "rewards true : 1; endrewards".toList := by decide
  cases given with
  | true => exact (List.flatMap_singleton _ _).trans htext
  | false => rfl

/-- **The tokens of a model** are those of its sections.  The comment is left out, for it is no
token but is read by itself. -/
theorem lex_render (h : m.Clear) : lex (render { m with comment? := none }).toList = modelTokens m := by
  rw [render, String.toList_append]
  change lex (_ ++ '\n' :: []) = _
  rw [lex_append_blank (by decide) (by decide), String.toList_intercalate,
    lex_intercalate (by decide) (by decide), List.flatMap_map, sections]
  simp only [List.flatMap_append, lex_constants h.constants, lex_rewards]
  rw [List.flatMap_singleton, lex_moduleText h, modelTokens, ← lex_label h.goal]
  simp [lex]

/-! ## Reading -/

/-- Constants are read up to the word that begins the module. -/
theorem read_constants (m : Model) (rest : List Token) :
    repeated (· == .word "const".toList) Grammar.constantDeclaration
      (m.constants.flatMap constantTokens ++ (lex "module".toList ++ rest)) =
        some (m.constants.map Constant.plain, lex "module".toList ++ rest) := by
  refine (Repeats.of_items (fun _ => True) (fun _ _ _ => trivial) (fun k _ => ⟨⟨_, _, rfl, rfl⟩, ?_⟩)
    rfl trivial).2.repeated_eq
  exact fun rest _ => read_constant k rest

/-- Whether a declaration of a variable cannot begin here.  This is what ends the loop over
variables. -/
def EndsVariables (rest : List Token) : Prop :=
  rest.head?.any Grammar.startsVariable = false

/-- Commands are read up to the end of the module, and none of them begins like a variable.  Both
are told by the bracket that every command begins with. -/
theorem read_commands (h : m.Clear) (rest : List Token) :
    EndsVariables (m.commands.flatMap commandTokens ++ (lex "endmodule".toList ++ rest)) ∧
      repeated (· == .mark '[') Grammar.command
        (m.commands.flatMap commandTokens ++ (lex "endmodule".toList ++ rest)) =
          some (m.commands.map Command.plain, lex "endmodule".toList ++ rest) := by
  have hbracket : ∀ t us, (t == Token.mark '[') → EndsVariables (t :: us) := by
    intro t us ht
    rw [eq_of_beq ht]
    rfl
  have hloop : EndsVariables (m.commands.flatMap commandTokens ++ (lex "endmodule".toList ++ rest)) ∧
      Repeats (· == .mark '[') Grammar.command
        (m.commands.flatMap commandTokens ++ (lex "endmodule".toList ++ rest))
        (m.commands.map Command.plain) (lex "endmodule".toList ++ rest) := by
    refine Repeats.of_items EndsVariables hbracket (fun c hc => ⟨⟨_, _, rfl, rfl⟩, ?_⟩) rfl rfl
    exact fun rest _ => read_command (h.commands c hc) rest
  exact ⟨hloop.1, hloop.2.repeated_eq⟩

/-- Variables are read up to the first command, or to the end of a module without commands. -/
theorem read_variables (h : m.Clear) {rest : List Token} (hrest : EndsVariables rest) :
    repeated Grammar.startsVariable Grammar.variableDeclaration (m.vars.flatMap variableTokens ++ rest) =
      some (m.vars.map Variable.plain, rest) := by
  refine (Repeats.of_items (fun _ => True) (fun _ _ _ => trivial) (fun x hx => ⟨⟨_, _, rfl, ?_⟩, ?_⟩)
    hrest trivial).2.repeated_eq
  · exact bne_iff_ne.mpr fun heq => (h.vars x hx).ne_end (String.toList_inj.mp heq)
  · exact fun rest _ => read_variable (h.vars x hx) rest

/-- Whether steps are rewarded is read off what is left at the end. -/
theorem read_rewards (given : Bool) :
    ∃ found, optional (skip "rewards true : 1; endrewards") (rewardsTokens given) = some (found, []) ∧
      found.isSome = given := by
  cases given with
  | true =>
      have hskip := skip_append "rewards true : 1; endrewards" []
      rw [List.append_nil] at hskip
      exact ⟨some (), optional_eq hskip, rfl⟩
  | false =>
      have hskip : skip "rewards true : 1; endrewards" [] = none := rfl
      exact ⟨none, optional_eq_none hskip, rfl⟩

/-- **The sections of a model** are read as they were written, one after the other and to the end of
the text. -/
theorem source_modelTokens (h : m.Clear) :
    Grammar.source (m.comment?.getD "") (modelTokens m) = some (m.source, []) := by
  obtain ⟨found, hrewards, hfound⟩ := read_rewards m.rewards
  obtain ⟨hends, hcommands⟩ := read_commands h (rewardsTokens m.rewards)
  simp only [modelTokens, List.cons_append, List.nil_append]
  rw [Grammar.source, bind_eq (skip_append _ _), bind_eq (read_label h.goal _),
    bind_eq (read_constants m _), bind_eq (skip_append _ _), bind_eq (word_cons _ _),
    bind_eq (read_variables h hends), bind_eq hcommands, bind_eq (skip_append _ _), bind_eq hrewards,
    Model.source, ← hfound]
  rfl

/-- **A written model** is read as it was, with its comment and all its sections.  The comment is
given as the lines that it consists of, the last of which is not empty. -/
theorem read_render (h : m.Clear) (hcomment : m.comment? = some text)
    (htext : text.toList = ['\n'].intercalate ls) (hlines : ∀ line ∈ ls, Text.IsLine line)
    (hlast : ls.getLast? ≠ some []) (hne : ls ≠ []) : read (render m).toList = some m.source := by
  have hbody : bodyTokens (render m).toList = modelTokens m := by
    rw [bodyTokens, dropWhile_lines_render hcomment htext hlines hlast hne, List.flatMap_cons,
      flatMap_lex_lines, lex_render h]
    rfl
  have hsource := source_modelTokens h
  rw [hcomment, Option.getD_some, ← String.ofList_toList (s := text),
    ← headerOf_render hcomment htext hlines hlast hne] at hsource
  rw [read, hbody, hsource]
  rfl

end Prism

end Sokoban
