import Sokoban.Proofs.Prism.Plain

/-! # Reading written declarations and commands

The parts of a model are written from names, expressions and fixed texts.  For each kind of part
there are the tokens it is written as, and the reader of the grammar takes just these off the front
and gives the part back, with its literals in their shortest forms.  There are therefore two facts
about each kind: what the written text is as tokens (`lex_…`, `spells_…`), and what these tokens are
read as (`read_…`).  The first are about seams between texts, the second about the grammar, and they
meet in the tokens.

A branch without a probability begins where a probability could.  It is told apart by the apostrophe
behind the name that is assigned, which is part of no expression, and by the colon that does not
follow `true` (`probability_updateTokens`).  What comes behind a branch must be neither an operator
nor a colon (`EndsBranch`); a plus, which parts branches, is no operator of the grammar.

The hypotheses are those of `Clear`: names are names, and expressions are such as come up in models.
-/

namespace Sokoban

open Prism (IsName)

/-! ## Parts in plain form -/

/-- An assignment of the plain form of its value. -/
def Assignment.plain (a : Assignment) : Assignment :=
  { a with value := a.value.plain }

/-- A branch with its probability and its assignments in plain form. -/
def Branch.plain (b : Branch) : Branch where
  probability? := b.probability?.map Expr.plain
  assignments := b.assignments.map Assignment.plain

/-- A command with its guard and its branches in plain form. -/
def Command.plain (c : Command) : Command :=
  { c with guard := c.guard.plain, branches := c.branches.map Branch.plain }

/-- A variable with its initial value in plain form. -/
def Variable.plain (x : Variable) : Variable :=
  { x with initial := x.initial.plain }

/-- A constant as its declaration is read: its name and its value. -/
def Constant.plain (c : Constant) : String × Option Expr :=
  (c.name, c.value?.map Expr.written)

/-! ## Parts that can be read -/

/-- An assignment to a name, of a value that can be read again. -/
structure Assignment.Clear (a : Assignment) : Prop where
  target : IsName a.target
  value : a.value.Clear

/-- A branch whose probability and values can be read again. -/
structure Branch.Clear (b : Branch) : Prop where
  probability : ∀ p ∈ b.probability?, p.Clear
  assignments : ∀ a ∈ b.assignments, a.Clear

/-- A command with a branch at least.  Without one there would be nothing behind the arrow. -/
structure Command.Clear (c : Command) : Prop where
  action : ∀ action ∈ c.action?, IsName action
  guard : c.guard.Clear
  ne_nil : c.branches ≠ []
  branches : ∀ b ∈ c.branches, b.Clear

/-- A variable with a name that declares one. -/
structure Variable.Clear (x : Variable) : Prop where
  name : IsName x.name
  /-- The word that ends a module declares nothing. -/
  ne_end : x.name ≠ "endmodule"
  initial : x.initial.Clear

namespace Prism

open Reader

variable {a : Assignment} {as : List Assignment} {b : Branch} {c : Command} {x : Variable}
  {rest : List Token} {e : Expr}

/-! ## Tokens -/

/-- The tokens of an assignment: the name with its apostrophe and the value, in brackets. -/
def assignmentTokens (a : Assignment) : List Token :=
  lex "(".toList ++ ([.word a.target.toList] ++ (lex "'=".toList ++
    (tokens 0 a.value ++ lex ")".toList)))

/-- The tokens of assignments, or of `true` where there are none. -/
def updateTokens : List Assignment → List Token
  | [] => lex "true".toList
  | as => [.mark '&'].intercalate (as.map assignmentTokens)

/-- The tokens of a branch.  Its probability stands in front, if it has one. -/
def branchTokens (b : Branch) : List Token :=
  match b.probability? with
  | some probability => tokens 5 probability ++ (lex ":".toList ++ updateTokens b.assignments)
  | none => updateTokens b.assignments

/-- The tokens of a command, from the action in brackets to the semicolon. -/
def commandTokens (c : Command) : List Token :=
  lex "[".toList ++ ((c.action?.map fun action => Token.word action.toList).toList ++
    (lex "]".toList ++ (tokens 0 c.guard ++ (lex "->".toList ++
      ([.mark '+'].intercalate (c.branches.map branchTokens) ++ lex ";".toList)))))

/-- An assignment is written as its tokens.  The name is between a bracket and an apostrophe, and
the value in a place of its own. -/
theorem spells_assignment (h : a.Clear) : Spells (assignment a).toList (assignmentTokens a) := by
  have htext : (assignment a).toList =
      "(".toList ++ (a.target.toList ++ ("'=".toList ++
        ((expression a.value).toList ++ (")".toList ++ [])))) := by
    simp [assignment]
  have hlast : (")".toList ++ []).getLast?.any closes := by decide
  rw [htext]
  refine ⟨?_, any_head?_append (by decide) _, ?_⟩
  · rw [(spells_name h.target).framed "(" "'=" (by decide) (by decide),
      h.value.spells_expression.framed "'=" ")" (by decide) (by decide)]
    rfl
  · iterate 4 apply any_getLast?_append
    exact hlast

/-- Assignments are written as their tokens, joined by a mark.  An update that assigns nothing is
written as a truth value, as something has to stand there. -/
theorem spells_update (h : ∀ a ∈ as, a.Clear) : Spells (update as).toList (updateTokens as) := by
  cases as with
  | nil => exact .of_word (by decide) (by decide)
  | cons a as =>
      have hall : List.Forall₂ Spells (((a :: as).map assignment).map String.toList)
          ((a :: as).map assignmentTokens) := by
        rw [List.map_map, List.forall₂_map_left_iff, List.forall₂_map_right_iff, List.forall₂_same]
        exact fun a ha => spells_assignment (h a ha)
      rw [update, String.toList_intercalate]
      · exact Spells.intercalate hall (by simp) (by decide)
      · exact nofun

/-- A branch is written as its tokens, with a probability or without. -/
theorem spells_branch (h : b.Clear) : Spells (branch b).toList (branchTokens b) := by
  obtain ⟨probability?, assignments⟩ := b
  cases probability? with
  | none => exact spells_update h.assignments
  | some probability =>
      have hprobability := (h.probability probability rfl).spells 5
      have hboth := hprobability.between (by decide : Parts ":".toList) (spells_update h.assignments)
      rw [List.append_assoc (tokens 5 probability)] at hboth
      simpa only [branch, branchTokens, String.toList_append] using hboth

/-- Branches are written as their tokens, with a plus between them. -/
theorem spells_branches (hne : c.branches ≠ []) (h : ∀ b ∈ c.branches, b.Clear) :
    Spells (" + ".intercalate (c.branches.map branch)).toList
      ([.mark '+'].intercalate (c.branches.map branchTokens)) := by
  have hall : List.Forall₂ Spells ((c.branches.map branch).map String.toList)
      (c.branches.map branchTokens) := by
    rw [List.map_map, List.forall₂_map_left_iff, List.forall₂_map_right_iff, List.forall₂_same]
    exact fun b hb => spells_branch (h b hb)
  rw [String.toList_intercalate]
  exact Spells.intercalate hall (by simpa using hne) (by decide)

/-- A command is written as its tokens.  The seams are those between fixed texts, a name and a
guard. -/
theorem lex_command (h : c.Clear) : lex (command c).toList = commandTokens c := by
  have hbranches := spells_branches h.ne_nil h.branches
  have hguard : ∀ front : String, front.toList.getLast?.all (!isWordChar ·) →
      lex (front.toList ++ ((expression c.guard).toList ++ (" -> ".toList ++
        ((" + ".intercalate (c.branches.map branch)).toList ++ (";".toList ++ []))))) =
        lex front.toList ++ (tokens 0 c.guard ++ (lex "->".toList ++
          ([.mark '+'].intercalate (c.branches.map branchTokens) ++ lex ";".toList))) := by
    intro front hfront
    rw [h.guard.spells_expression.framed front " -> " hfront (by decide),
      hbranches.framed " -> " ";" (by decide) (by decide)]
    rfl
  cases haction : c.action? with
  | none =>
      have htext : (command c).toList = "[] ".toList ++ ((expression c.guard).toList ++ (" -> ".toList ++
          ((" + ".intercalate (c.branches.map branch)).toList ++ (";".toList ++ [])))) := by
        simp [command, haction]
      rw [htext, hguard "[] " (by decide), commandTokens, haction]
      rfl
  | some action =>
      have htext : (command c).toList = "[".toList ++ (action.toList ++ ("] ".toList ++
          ((expression c.guard).toList ++ (" -> ".toList ++
            ((" + ".intercalate (c.branches.map branch)).toList ++ (";".toList ++ [])))))) := by
        simp [command, haction]
      rw [htext, (spells_name (h.action action haction)).framed "[" "] " (by decide) (by decide),
        hguard "] " (by decide), commandTokens, haction]
      rfl

/-! ## Reading -/

/-- An assignment is read with the plain form of its value. -/
theorem read_assignment (h : a.Clear) (rest : List Token) :
    Grammar.assignment (assignmentTokens a ++ rest) = some (a.plain, rest) := by
  simp only [assignmentTokens, List.append_assoc, List.cons_append, List.nil_append]
  have hvalue : Grammar.expression (tokens 0 a.value ++ (lex ")".toList ++ rest)) =
      some (a.value.plain, lex ")".toList ++ rest) :=
    h.value.expression_eq (Nat.zero_le 7) (stops_cons nofun)
  rw [Grammar.assignment, bind_eq (skip_append _ _), bind_eq (word_cons _ _), bind_eq (skip_append _ _),
    bind_eq hvalue, bind_eq (skip_append _ _)]
  rfl

/-- Assignments begin with a bracket, a name and an apostrophe.  No expression begins so. -/
theorem exists_updateTokens (a : Assignment) (as : List Assignment) : ∃ ts,
    updateTokens (a :: as) = .mark '(' :: .word a.target.toList :: .mark '\'' :: ts := by
  rw [updateTokens, intercalate_cons_flatMap]
  · exact ⟨_, rfl⟩
  · exact nofun

/-- Assignments go on at the next ampersand.  As the value stands in brackets, an ampersand in it is
not seen here. -/
theorem read_update (h : ∀ a ∈ as, a.Clear) (hstop : Stops 0 rest) :
    Grammar.update (updateTokens as ++ rest) = some (as.map Assignment.plain, rest) := by
  cases as with
  | nil =>
      have htrue : upcoming (· == .word "true".toList) (lex "true".toList ++ rest) =
          some (true, lex "true".toList ++ rest) := rfl
      change Grammar.update (lex "true".toList ++ rest) = _
      rw [Grammar.update, bind_eq htrue, if_pos rfl, bind_eq (skip_append _ _)]
      rfl
  | cons a as =>
      have hlast : rest.head?.any (· == .mark '&') = false :=
        hstop.head?_ne (t := .mark '&') rfl (Nat.zero_le 2)
      have hlist : listed (· == .mark '&') Grammar.assignment (updateTokens (a :: as) ++ rest) =
            some ((a :: as).map Assignment.plain, rest) :=
        listed_intercalate (fun _ => True) rfl (fun _ _ _ => trivial) (List.cons_ne_nil a as)
          (fun b hb rest _ => read_assignment (h b hb) rest) hlast trivial
      have hopen : upcoming (· == .word "true".toList) (updateTokens (a :: as) ++ rest) =
          some (false, updateTokens (a :: as) ++ rest) := by
        obtain ⟨ts, hts⟩ := exists_updateTokens a as
        rw [hts]
        rfl
      rw [Grammar.update, bind_eq hopen]
      exact hlist

/-- What a branch is followed by: neither an operator nor a colon. -/
def EndsBranch (rest : List Token) : Prop :=
  Stops 0 rest ∧ .mark ':' ∉ rest.head?

/-- A token that is no operator and no colon ends a branch. -/
theorem endsBranch_cons {t : Token} {us : List Token} (ht : ∀ strength ∈ t.strength?, strength < 0)
    (hcolon : t ≠ .mark ':') : EndsBranch (t :: us) :=
  ⟨stops_cons ht, by simpa using hcolon⟩

/-- Assignments are no probability.  Those that are there fail at the apostrophe, and `true` is an
expression but has no colon behind it. -/
theorem probability_updateTokens (h : ∀ a ∈ as, a.Clear) (hrest : EndsBranch rest) :
    Grammar.probability (updateTokens as ++ rest) = none := by
  obtain ⟨hstop, hcolon⟩ := hrest
  cases as with
  | nil =>
      have htokens : updateTokens [] = tokens 0 (.bool true) := by decide
      have htrue : Grammar.expression (tokens 0 (.bool true) ++ rest) = some (.bool true, rest) :=
        expression_tokens (.bool true) (Nat.zero_le 7) hstop
      have hskip : skip ":" rest = none := skip_eq_none (t := .mark ':') (by decide) hcolon
      rw [Grammar.probability, htokens, bind_eq htrue]
      exact bind_eq_none hskip
  | cons a as =>
      obtain ⟨ts, hts⟩ := exists_updateTokens a as
      have htarget := (h a List.mem_cons_self).target
      rw [Grammar.probability, hts]
      exact bind_eq_none (expression_unclosed htarget rfl (by decide) (ts ++ rest))

/-- A branch is read with its probability, or without one if it has none.  In the first case a colon
follows the probability; in the second the attempt to read one fails, and nothing is lost. -/
theorem read_branch (h : b.Clear) (hrest : EndsBranch rest) :
    Grammar.branch (branchTokens b ++ rest) = some (b.plain, rest) := by
  have hupdate := read_update h.assignments hrest.1
  cases hprobability : b.probability? with
  | none =>
      have hnone := optional_eq_none (probability_updateTokens h.assignments hrest)
      have htokens : branchTokens b = updateTokens b.assignments := by
        rw [branchTokens, hprobability]
      rw [htokens, Grammar.branch, bind_eq hnone, bind_eq hupdate, Branch.plain, hprobability]
      rfl
  | some probability =>
      have htokens : branchTokens b ++ rest =
          tokens 5 probability ++ (lex ":".toList ++ (updateTokens b.assignments ++ rest)) := by
        rw [branchTokens, hprobability]
        simp
      have hexpression : Grammar.expression (branchTokens b ++ rest) =
          some (probability.plain, lex ":".toList ++ (updateTokens b.assignments ++ rest)) := by
        rw [htokens]
        exact (h.probability probability hprobability).expression_eq (by decide) (stops_cons nofun)
      have hsome : Grammar.probability (branchTokens b ++ rest) =
          some (probability.plain, updateTokens b.assignments ++ rest) := by
        rw [Grammar.probability, bind_eq hexpression, bind_eq (skip_append _ _)]
        rfl
      rw [Grammar.branch, bind_eq (optional_eq hsome), bind_eq hupdate, Branch.plain, hprobability]
      rfl

/-- **A command** is read as it was written, with its guard and its branches in plain form.  An
arrow ends the guard, a plus each branch but the last, and a semicolon that one. -/
theorem read_command (h : c.Clear) (rest : List Token) :
    Grammar.command (commandTokens c ++ rest) = some (c.plain, rest) := by
  have hsemicolon : EndsBranch (lex ";".toList ++ rest) := endsBranch_cons nofun nofun
  have hbranches : listed (· == .mark '+') Grammar.branch
      ([.mark '+'].intercalate (c.branches.map branchTokens) ++ (lex ";".toList ++ rest)) =
        some (c.branches.map Branch.plain, lex ";".toList ++ rest) := by
    refine listed_intercalate EndsBranch rfl ?_ h.ne_nil
      (fun b hb rest hrest => read_branch (h.branches b hb) hrest) rfl hsemicolon
    intro t us ht
    obtain rfl := eq_of_beq ht
    exact endsBranch_cons nofun nofun
  have hguard : Grammar.expression (tokens 0 c.guard ++ (lex "->".toList ++
      ([.mark '+'].intercalate (c.branches.map branchTokens) ++ (lex ";".toList ++ rest)))) =
        some (c.guard.plain, lex "->".toList ++
          ([.mark '+'].intercalate (c.branches.map branchTokens) ++ (lex ";".toList ++ rest))) :=
    h.guard.expression_eq (Nat.zero_le 7) (stops_cons nofun)
  have haction : ∀ us, optional word
      ((c.action?.map fun action => Token.word action.toList).toList ++ (lex "]".toList ++ us)) =
        some (c.action?, lex "]".toList ++ us) := by
    intro us
    cases c.action? with
    | none => exact optional_eq_none rfl
    | some action => exact optional_eq (word_cons action _)
  simp only [commandTokens, List.append_assoc]
  rw [Grammar.command, bind_eq (skip_append _ _), bind_eq (haction _), bind_eq (skip_append _ _),
    bind_eq hguard, bind_eq (skip_append _ _), bind_eq hbranches, bind_eq (skip_append _ _)]
  rfl

/-! ## Declarations -/

/-- The tokens of a type: a word, or two bounds in brackets. -/
def typeTokens : VariableType → List Token
  | .bool => lex "bool".toList
  | .bounded lower upper =>
    lex "[".toList ++ (magnitude lower 0 ++ (lex "..".toList ++ (magnitude upper 0 ++ lex "]".toList)))

/-- The tokens of the declaration of a variable. -/
def variableTokens (x : Variable) : List Token :=
  [.word x.name.toList] ++ (lex ":".toList ++ (typeTokens x.type ++
    (lex "init".toList ++ (tokens 0 x.initial ++ lex ";".toList))))

/-- The tokens of the declaration of a constant, with its value if it has one. -/
def constantTokens (k : Constant) : List Token :=
  lex "const double ".toList ++ ([.word k.name.toList] ++
    match k.value? with
    | some value => lex "=".toList ++ (tokens 0 (.real value) ++ lex ";".toList)
    | none => lex ";".toList)

/-- The tokens of a label, of which the quotation marks are marks of their own. -/
def labelTokens (e : Expr) : List Token :=
  lex "label \"".toList ++ ([.word "goal_reached".toList] ++
    (lex "\" =".toList ++ (tokens 0 e ++ lex ";".toList)))

variable {k : Constant}

/-- The declaration of a variable is written as its tokens.  Between the fixed words stand its name,
its type and its initial value, and no two of these run into one word. -/
theorem lex_variable (h : x.Clear) : lex (variableDeclaration x).toList = variableTokens x := by
  have hname := spells_name h.name
  have hinitial := h.initial.spells_expression
  cases htype : x.type with
  | bool =>
      have htext : (variableDeclaration x).toList = "".toList ++ (x.name.toList ++
          (": bool init ".toList ++ ((expression x.initial).toList ++ (";".toList ++ [])))) := by
        simp [variableDeclaration, htype]
      rw [htext, hname.framed "" ": bool init " (by decide) (by decide),
        hinitial.framed ": bool init " ";" (by decide) (by decide), variableTokens, htype]
      rfl
  | bounded lower upper =>
      have htext : (variableDeclaration x).toList = "".toList ++ (x.name.toList ++ (": [".toList ++
          ((toString lower).toList ++ ("..".toList ++ ((toString upper).toList ++ ("] init ".toList ++
            ((expression x.initial).toList ++ (";".toList ++ [])))))))) := by
        have hbounds : s!"[{lower}..{upper}]" =
            "[" ++ toString lower ++ ".." ++ toString upper ++ "]" := rfl
        simp only [variableDeclaration, htype, hbounds]
        simp
      rw [htext, hname.framed "" ": [" (by decide) (by decide),
        (spells_nat lower).framed ": [" ".." (by decide) (by decide),
        (spells_nat upper).framed ".." "] init " (by decide) (by decide),
        hinitial.framed "] init " ";" (by decide) (by decide), variableTokens, htype]
      simp only [typeTokens, List.append_assoc]
      rfl

/-- The declaration of a constant is written as its tokens.  Without a value it ends behind the
name, and whoever uses the model has to give one. -/
theorem lex_constant (h : IsName k.name) : lex (constantDeclaration k).toList = constantTokens k := by
  have hname := spells_name h
  cases hvalue : k.value? with
  | none =>
      have htext : (constantDeclaration k).toList =
          "const double ".toList ++ (k.name.toList ++ (";".toList ++ [])) := by
        simp [constantDeclaration, hvalue]
      rw [htext, hname.framed "const double " ";" (by decide) (by decide), constantTokens, hvalue]
      rfl
  | some value =>
      have htext : (constantDeclaration k).toList = "const double ".toList ++ (k.name.toList ++
          (" = ".toList ++ ((number value).toList ++ (";".toList ++ [])))) := by
        simp [constantDeclaration, hvalue]
      rw [htext, hname.framed "const double " " = " (by decide) (by decide),
        (spells_number value).framed " = " ";" (by decide) (by decide), constantTokens, hvalue]
      rfl

/-- A label is written as its tokens. -/
theorem lex_label (h : e.Clear) : lex (label "goal_reached" e).toList = labelTokens e := by
  have hname : IsName "goal_reached" := ⟨by decide, by decide, by decide, by decide, by decide⟩
  have htext : (label "goal_reached" e).toList = "label \"".toList ++ ("goal_reached".toList ++
      ("\" = ".toList ++ ((expression e).toList ++ (";".toList ++ [])))) := by
    simp [label]
  rw [htext, (spells_name hname).framed "label \"" "\" = " (by decide) (by decide),
    h.spells_expression.framed "\" = " ";" (by decide) (by decide)]
  rfl

/-- A type is read as it was written.  The two dots between bounds are one mark, so they are not
taken for the point of a decimal. -/
theorem read_type (type : VariableType) (rest : List Token) :
    Grammar.type (typeTokens type ++ rest) = some (type, rest) := by
  cases type with
  | bool =>
      have hbool : upcoming (· == .mark '[') (lex "bool".toList ++ rest) =
          some (false, lex "bool".toList ++ rest) := rfl
      rw [typeTokens, Grammar.type, bind_eq hbool]
      change (skip "bool" >>= _) _ = _
      rw [bind_eq (skip_append _ _)]
      rfl
  | bounded lower upper =>
      simp only [typeTokens, List.append_assoc]
      have hbounds : ∀ us, upcoming (· == .mark '[') (lex "[".toList ++ us) =
          some (true, lex "[".toList ++ us) := fun _ => rfl
      rw [Grammar.type, bind_eq (hbounds _), if_pos rfl, bind_eq (skip_append _ _),
        bind_eq (Grammar.natural_magnitude _ _), bind_eq (skip_append _ _),
        bind_eq (Grammar.natural_magnitude _ _), bind_eq (skip_append _ _)]
      rfl

/-- **A variable** is read with its type and its initial value, which stands between fixed words.
The two types are told apart by the first token of the declaration. -/
theorem read_variable (h : x.Clear) (rest : List Token) :
    Grammar.variableDeclaration (variableTokens x ++ rest) = some (x.plain, rest) := by
  have hinitial : Grammar.expression (tokens 0 x.initial ++ (lex ";".toList ++ rest)) =
      some (x.initial.plain, lex ";".toList ++ rest) :=
    h.initial.expression_eq (Nat.zero_le 7) (stops_cons nofun)
  simp only [variableTokens, List.append_assoc, List.cons_append, List.nil_append]
  rw [Grammar.variableDeclaration, bind_eq (word_cons _ _), bind_eq (skip_append _ _),
    bind_eq (read_type _ _), bind_eq (skip_append _ _), bind_eq hinitial, bind_eq (skip_append _ _)]
  rfl

/-- **A constant** is read with its value, if it has one.  What follows the name tells the two
apart: a sign of equality, or the semicolon. -/
theorem read_constant (k : Constant) (rest : List Token) :
    Grammar.constantDeclaration (constantTokens k ++ rest) = some (k.plain, rest) := by
  cases hvalue : k.value? with
  | none =>
      have hend : upcoming (· == .mark '=') (lex ";".toList ++ rest) =
          some (false, lex ";".toList ++ rest) := rfl
      simp only [constantTokens, hvalue, List.append_assoc, List.cons_append, List.nil_append]
      rw [Grammar.constantDeclaration, bind_eq (skip_append _ _), bind_eq (word_cons _ _), bind_eq hend]
      change (skip ";" >>= _) _ = _
      rw [bind_eq (skip_append _ _), Constant.plain, hvalue]
      rfl
  | some value =>
      have hclear : (Expr.real value).Clear := ⟨.real value, nofun⟩
      have hexpression : Grammar.expression (tokens 0 (.real value) ++ (lex ";".toList ++ rest)) =
          some (.written value, lex ";".toList ++ rest) :=
        hclear.expression_eq (Nat.zero_le 7) (stops_cons nofun)
      have hequals : ∀ us, upcoming (· == .mark '=') (lex "=".toList ++ us) =
          some (true, lex "=".toList ++ us) := fun _ => rfl
      simp only [constantTokens, hvalue, List.append_assoc, List.cons_append, List.nil_append]
      rw [Grammar.constantDeclaration, bind_eq (skip_append _ _), bind_eq (word_cons _ _),
        bind_eq (hequals _), if_pos rfl, bind_eq (skip_append _ _), bind_eq hexpression,
        bind_eq (skip_append _ _), Constant.plain, hvalue]
      rfl

/-- A label is read with its name and its expression in plain form. -/
theorem read_label (h : e.Clear) (rest : List Token) :
    Grammar.label (labelTokens e ++ rest) = some (("goal_reached", e.plain), rest) := by
  have hexpression : Grammar.expression (tokens 0 e ++ (lex ";".toList ++ rest)) =
      some (e.plain, lex ";".toList ++ rest) := h.expression_eq (Nat.zero_le 7) (stops_cons nofun)
  simp only [labelTokens, List.append_assoc, List.cons_append, List.nil_append]
  rw [Grammar.label, bind_eq (skip_append _ _), bind_eq (word_cons _ _), bind_eq (skip_append _ _),
    bind_eq hexpression, bind_eq (skip_append _ _)]
  rfl

end Prism

end Sokoban
