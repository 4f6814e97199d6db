import Sokoban.Proofs.Prism.Printing

/-! # Reading written expressions

A written expression is read as the expression it was, up to what writing loses: decimals come back
in their shortest form, the operands of a conjunction in a conjunction become its own, and a
conjunction or disjunction of one operand is this operand (`Expr.reading`).

The levels of the grammar are numbered by the strengths of their operators, from a choice at 0 to an
operand at 7.  Tokens that are read at a level are read at every looser one (`Reads.looser`), and
brackets make them an operand (`reads_brackets`).  The reading of a level is stated with whatever
comes next, as long as no operator of that level or a stronger one comes next (`Stops`); this is
what lets the parts be put together.

Where operators join from the left, an operand on the left that binds as strongly goes on as part of
the same chain, so chains are put together (`Chain`) before they are read.  In the text `a-b-c`
there are no two readings one within the other but one loop over three operands.

The main result, `understood`, is by induction on the expression with one lemma per kind of
constructor.  It is stated with a bound on the depth of brackets that its number of tokens bounds,
because the grammar counts down the depth that it still may go.
-/

namespace Sokoban.Expr

open Prism.Grammar (joined)

mutual

/-- What a written expression is read as.  It differs from the expression in the three ways above.
-/
def reading : Expr → Expr
  | bool value => bool value
  | int value => int value
  | real value => written value
  | var name => var name
  | conj operands => joined conj (pieces operands)
  | disj operands => joined disj (readings operands)
  | neg operand => neg (reading operand)
  | eq left right => eq (reading left) (reading right)
  | ne left right => ne (reading left) (reading right)
  | cond condition yes no => cond (reading condition) (reading yes) (reading no)
  | sub left right => sub (reading left) (reading right)
  | mul left right => mul (reading left) (reading right)
  | div left right => div (reading left) (reading right)

/-- What several written expressions are read as. -/
def readings : List Expr → List Expr
  | [] => []
  | e :: rest => reading e :: readings rest

/-- What the operands of a written conjunction are read as, with those of conjunctions among them. -/
def pieces : List Expr → List Expr
  | [] => []
  | conj inner :: rest => pieces inner ++ pieces rest
  | e :: rest => reading e :: pieces rest

end

/-- The operands of a conjunction are read one after the other, each as one piece or more. -/
theorem pieces_cons (e : Expr) (rest : List Expr) : pieces (e :: rest) = pieces [e] ++ pieces rest := by
  cases e <;> simp [pieces]

/-- The pieces of a conjunction are those of its operands, put together. -/
theorem pieces_eq_flatMap (es : List Expr) : pieces es = es.flatMap fun e => pieces [e] := by
  induction es with
  | nil => rfl
  | cons e es ih => rw [pieces_cons, ih, List.flatMap_cons]

/-- The operands of a disjunction are one reading each.  It is written like `pieces_eq_flatMap`, so
that one lemma serves both. -/
theorem readings_eq_flatMap (es : List Expr) : readings es = es.flatMap fun e => [reading e] := by
  induction es with
  | nil => rfl
  | cons e es ih => rw [readings, ih, List.flatMap_cons, List.singleton_append]

end Sokoban.Expr

namespace Sokoban.Prism

open Sokoban.Expr (Legible reading readings pieces)
open Grammar Reader

/-- Nothing that comes next binds as strongly as `k`.  A bracket that closes, a semicolon or the end
of the text are no operators and stop every level. -/
def Stops (k : Nat) (rest : List Token) : Prop :=
  ∀ t ∈ rest.head?, ∀ strength ∈ t.strength?, strength < k

/-- The readers of the grammar, loosest first. -/
def level (whole : Reader Expr) : Nat → Reader Expr
  | 0 => choice whole
  | 1 => disjunction whole
  | 2 => conjunction whole
  | 3 => negation whole
  | 4 => comparison whole
  | 5 => difference whole
  | 6 => product whole
  | _ => operand whole

/-- Tokens that are read at a level as an expression, whatever comes next, unless it goes on with
them. -/
structure Reads (whole : Reader Expr) (k : Nat) (ts : List Token) (e : Expr) : Prop where
  ne_nil : ts ≠ []
  /-- Only negations begin with their mark. -/
  no_neg : 4 ≤ k → .mark '!' ∉ ts.head?
  read : ∀ rest, Stops k rest → level whole k (ts ++ rest) = some (e, rest)

/-- Tokens that are read as operands with operators of strength `k` between them.  The operands
themselves bind more strongly. -/
inductive Chain (whole : Reader Expr) (k : Nat) :
    List Token → Expr → List (Token × Expr) → Prop
  | single {ts : List Token} {e : Expr} (h : Reads whole (k + 1) ts e) : Chain whole k ts e []
  | more {ts us : List Token} {t : Token} {a b : Expr} {others : List (Token × Expr)}
      (h : Chain whole k ts a others) (ht : t.strength? = some k) (hb : Reads whole (k + 1) us b) :
      Chain whole k (ts ++ t :: us) a (others ++ [(t, b)])

/-- What operands with operators of strength `k` between them are joined to. -/
def joinAt (k : Nat) (first : Expr) (others : List (Token × Expr)) : Expr :=
  match k with
  | 1 => joined .disj (first :: others.map Prod.snd)
  | 2 => joined .conj (first :: others.map Prod.snd)
  | _ => leftwards first others

/-- The levels whose operators stand between operands. -/
def Joins (k : Nat) : Prop :=
  k = 1 ∨ k = 2 ∨ k = 4 ∨ k = 5 ∨ k = 6

variable {whole : Reader Expr} {a b e : Expr} {es : List Expr} {others later : List (Token × Expr)}
  {ts us rest : List Token} {t : Token} {j k n : Nat}

/-! ## What comes next -/

/-- What stops a level stops all tighter ones. -/
theorem Stops.mono (h : Stops j rest) (hjk : j ≤ k) : Stops k rest :=
  fun t ht strength hs => Nat.lt_of_lt_of_le (h t ht strength hs) hjk

/-- A token stops a level if it is no operator or binds less strongly. -/
theorem stops_cons (h : ∀ strength ∈ t.strength?, strength < k) : Stops k (t :: rest) := by
  intro u hu
  obtain rfl := Option.some.inj hu
  exact h

/-- No point comes next where operands stop, so a number before it is complete. -/
theorem Stops.no_point (h : Stops 7 rest) : .mark '.' ∉ rest.head? :=
  fun hmem => absurd (h _ hmem 7 rfl) (Nat.lt_irrefl 7)

/-- What comes next is no operator that binds as strongly.  In this form the levels with an operator
of their own see that they are done. -/
theorem Stops.head?_ne (h : Stops k rest) (ht : t.strength? = some j) (hk : k ≤ j) :
    rest.head?.any (· == t) = false := by
  cases hhead : rest.head? with
  | none => rfl
  | some u =>
      rw [Option.any_some, beq_eq_false_iff_ne]
      rintro rfl
      have hlt := h _ hhead j ht
      omega

/-- No operator of a level comes next where the level stops, so its loop ends there. -/
theorem Stops.head?_any (h : Stops k rest) : rest.head?.any (·.strength? == some k) = false := by
  cases hhead : rest.head? with
  | none => rfl
  | some t =>
      rw [Option.any_some, beq_eq_false_iff_ne]
      intro hstrength
      exact Nat.lt_irrefl k (h t hhead k hstrength)

/-! ## Levels -/

/-- At the levels with operators between operands the reader is a loop over the next tighter level.
-/
theorem level_eq_chain (h : Joins k) (whole : Reader Expr) :
    level whole k = chain k (level whole (k + 1)) (joinAt k) := by
  obtain rfl | rfl | rfl | rfl | rfl := h <;> rfl

/-- **A chain** is read up to what comes next.  The operators behind it are part of the same loop,
so the induction on the chain carries along what is read later. -/
theorem Chain.separated_eq (h : Chain whole k ts a others) (hstop : Stops (k + 1) rest)
    (hlater : Repeats (·.strength? == some k) (behind (level whole (k + 1))) rest later us) :
    separated (·.strength? == some k) (level whole (k + 1)) (ts ++ rest) =
      some ((a, others ++ later), us) := by
  induction h generalizing rest later with
  | single h => exact Reader.separated_eq (h.read rest hstop) hlater
  | @more ts vs t a b others h ht hb ih =>
      have hnext : Stops (k + 1) (t :: (vs ++ rest)) := by
        apply stops_cons
        intro strength hs
        obtain rfl := Option.some.inj (ht.symm.trans hs)
        exact Nat.lt_succ_self _
      have hmore : Repeats (·.strength? == some k) (behind (level whole (k + 1))) (t :: (vs ++ rest))
          ((t, b) :: later) us := by
        refine .more ?_ (behind_cons (hb.read rest hstop)) ?_ hlater
        · rw [List.head?_cons, Option.any_some, ht, beq_self_eq_true]
        · rw [List.length_cons, List.length_append]
          omega
      have hread := ih hnext hmore
      rwa [List.append_assoc, List.cons_append, List.append_assoc, List.singleton_append]

/-- A chain has a token at least. -/
theorem Chain.ne_nil (h : Chain whole k ts a others) : ts ≠ [] := by
  cases h with
  | single h => exact h.ne_nil
  | more => simp

/-- A chain of operands that are tighter than negations does not begin with the mark of one. -/
theorem Chain.no_neg (h : Chain whole k ts a others) (hk : 4 ≤ k) : .mark '!' ∉ ts.head? := by
  induction h with
  | single h => exact h.no_neg (by omega)
  | @more ts us t a b others h ht hb ih =>
      rwa [List.head?_append_of_ne_nil _ h.ne_nil]

/-- A chain is read at its level, as what its operands are joined to. -/
theorem Chain.reads (h : Chain whole k ts a others) (hk : Joins k) :
    Reads whole k ts (joinAt k a others) := by
  refine ⟨h.ne_nil, h.no_neg, fun rest hstop => ?_⟩
  have hread := h.separated_eq (hstop.mono (Nat.le_succ k)) (.done hstop.head?_any)
  rw [List.append_nil] at hread
  rw [level_eq_chain hk, chain, bind_eq hread]
  rfl

/-- Two chains with an operator of their strength between them are one chain.  This is why `a-b` in
front of `-c` needs no brackets. -/
theorem Chain.append (h : Chain whole k ts a others) (ht : t.strength? = some k)
    (hus : Chain whole k us b later) : Chain whole k (ts ++ t :: us) a (others ++ (t, b) :: later) := by
  induction hus with
  | single hb => exact h.more ht hb
  | @more us vs u b c later _ hu hc ih =>
      have hmore := ih.more hu hc
      rwa [List.append_assoc, List.cons_append, List.append_assoc, List.cons_append] at hmore

/-- What is read at a level is read at the next looser one.  Where that one joins operands this is a
chain of one; a negation and a choice look at their own mark first, which is not there. -/
theorem Reads.step (h : Reads whole (k + 1) ts e) (hk : k < 7) : Reads whole k ts e := by
  by_cases hjoins : Joins k
  · have hjoined : joinAt k e [] = e := by
      obtain rfl | rfl | rfl | rfl | rfl := hjoins <;> rfl
    have hreads := (Chain.single h).reads hjoins
    rwa [hjoined] at hreads
  · have hrest : k = 0 ∨ k = 3 := by
      unfold Joins at hjoins
      omega
    obtain rfl | rfl := hrest
    · refine ⟨h.ne_nil, fun hk => absurd hk (by decide), fun rest hstop => ?_⟩
      -- A choice looks at its own mark first, and it is not there.
      have hdisjunction : disjunction whole (ts ++ rest) = some (e, rest) :=
        h.read rest (hstop.mono (Nat.zero_le 1))
      have hmark : upcoming (· == .mark '?') rest = some (false, rest) := by
        rw [upcoming, hstop.head?_ne (t := .mark '?') rfl (Nat.le_refl 0)]
      change choice whole (ts ++ rest) = _
      rw [choice, bind_eq hdisjunction, bind_eq hmark]
      rfl
    · refine ⟨h.ne_nil, fun hk => absurd hk (by decide), fun rest hstop => ?_⟩
      -- So does a negation, and no operand begins with its mark.
      have hcomparison : comparison whole (ts ++ rest) = some (e, rest) :=
        h.read rest (hstop.mono (Nat.le_succ 3))
      change negation whole (ts ++ rest) = _
      unfold negation
      split
      next later heq =>
        refine absurd ?_ (h.no_neg (Nat.le_refl 4))
        rw [← List.head?_append_of_ne_nil ts h.ne_nil, heq]
        rfl
      next => exact hcomparison

/-- **What is read at a level** is read at all looser ones, if nothing behind it belongs to an
operator there.  By induction on the difference. -/
theorem Reads.looser (h : Reads whole k ts e) (hk : k ≤ 7) (hjk : j ≤ k) : Reads whole j ts e := by
  obtain ⟨d, rfl⟩ := Nat.exists_eq_add_of_le hjk
  induction d with
  | zero => exact h
  | succ d ih =>
      have hstep : Reads whole (j + d) ts e := Reads.step h (by omega)
      exact ih hstep (by omega) (by omega)

/-! ## Places -/

/-- No expression binds more strongly than an operand. -/
theorem strength_le (e : Expr) : strength e ≤ 7 := by
  cases e <;> simp [strength]

/-- An expression is written as in the loosest place, with brackets where its place asks for more
than its strength. -/
theorem tokens_eq_wrap (e : Expr) (hk : k ≤ 7) : tokens k e = wrap (strength e) k (tokens 0 e) := by
  have hloose : ∀ (s : Nat) (ts : List Token), wrap s 0 ts = ts := fun s ts => if_neg (Nat.not_lt_zero s)
  have htight : ∀ ts : List Token, wrap 7 k ts = ts := fun ts => if_neg (Nat.not_lt.mpr hk)
  cases e <;> simp only [tokens, strength, hloose, htight]

/-- In a place that it can stand in, an expression is written as it is. -/
theorem tokens_eq (hk : k ≤ strength e) : tokens k e = tokens 0 e := by
  rw [tokens_eq_wrap e (hk.trans (strength_le e)), wrap, if_neg (Nat.not_lt.mpr hk)]

/-- A written expression is read if its brackets are nested less than `n` deep.  Besides, it can be
taken as a part of a chain where it is joined by the operators of one. -/
structure Understood (e : Expr) (n : Nat) : Prop where
  reads : Reads (withinDepth n) (strength e) (tokens 0 e) (reading e)
  /-- A chain from the left can go on. -/
  left : strength e = 5 ∨ strength e = 6 → ∃ a others,
    Chain (withinDepth n) (strength e) (tokens 0 e) a others ∧ leftwards a others = reading e
  /-- A conjunction can go on. -/
  both : strength e = 2 → ∃ a others,
    Chain (withinDepth n) 2 (tokens 0 e) a others ∧ a :: others.map Prod.snd = pieces [e]

/-- Brackets make an operand of anything that is read at the loosest level, one deeper than it. -/
theorem reads_brackets (h : Reads (withinDepth n) 0 ts e) :
    Reads (withinDepth (n + 1)) 7 ([.mark '('] ++ ts ++ [.mark ')']) e := by
  refine ⟨by simp, fun _ => by simp, fun rest hstop => ?_⟩
  have hwhole : withinDepth (n + 1) (ts ++ .mark ')' :: rest) = some (e, .mark ')' :: rest) :=
    h.read _ (stops_cons nofun)
  have hclose : skip ")" (.mark ')' :: rest) = some ((), rest) := skip_mark (by decide) rest
  have htokens : [.mark '('] ++ ts ++ [.mark ')'] ++ rest = .mark '(' :: (ts ++ .mark ')' :: rest) := by
    simp
  rw [htokens]
  change operand (withinDepth (n + 1)) (.mark '(' :: (ts ++ .mark ')' :: rest)) = _
  rw [operand, bind_eq hwhole, bind_eq hclose]
  rfl

section Places

variable (h : ∀ n, (tokens 0 e).length ≤ n → Understood e n)

include h

/-- In a place that it cannot stand in as it is, an expression is in brackets, and so is an operand
there. -/
theorem reads_wrapped (hk : k ≤ 7) (hloose : strength e < k) (hn : (tokens k e).length ≤ n) :
    Reads (withinDepth n) 7 (tokens k e) (reading e) := by
  rw [tokens_eq_wrap e hk, wrap, if_pos hloose] at hn ⊢
  rw [List.length_append, List.length_append, List.length_singleton, List.length_singleton] at hn
  obtain ⟨n, rfl⟩ : ∃ m, n = m + 1 := ⟨n - 1, by omega⟩
  exact reads_brackets ((h n (by omega)).reads.looser (strength_le e) (Nat.zero_le _))

/-- Unless it is joined by the operators of a place, an expression there is read at the next level.
It binds more strongly, or is in brackets. -/
theorem reads_tighter (hk : k < 7) (hne : strength e ≠ k) (hn : (tokens k e).length ≤ n) :
    Reads (withinDepth n) (k + 1) (tokens k e) (reading e) := by
  by_cases hloose : strength e < k
  · exact (reads_wrapped h hk.le hloose hn).looser (Nat.le_refl 7) hk
  · rw [tokens_eq (Nat.not_lt.mp hloose)] at hn ⊢
    exact (h n hn).reads.looser (strength_le e) (by omega)

/-- **In its place** a written expression is read.  This is the form in which the parts of an
expression are known when the whole is put together. -/
theorem reads_place (hk : k ≤ 7) (hn : (tokens k e).length ≤ n) :
    Reads (withinDepth n) k (tokens k e) (reading e) := by
  by_cases hloose : strength e < k
  · exact (reads_wrapped h hk hloose hn).looser (Nat.le_refl 7) hk
  · rw [tokens_eq (Nat.not_lt.mp hloose)] at hn ⊢
    exact (h n hn).reads.looser (strength_le e) (by omega)

/-- On the left of an operator that joins from the left, an expression is part of a chain.  It is a
chain itself if it has the same strength, and a chain of one otherwise. -/
theorem exists_chain_left (hk : k = 5 ∨ k = 6) (hn : (tokens k e).length ≤ n) :
    ∃ a others, Chain (withinDepth n) k (tokens k e) a others ∧ leftwards a others = reading e := by
  by_cases hsame : strength e = k
  · rw [tokens_eq hsame.ge] at hn ⊢
    subst hsame
    exact (h n hn).left hk
  · exact ⟨reading e, [], .single (reads_tighter h (by omega) hsame hn), rfl⟩

/-- In a conjunction, an expression is part of a chain, with all its operands if it is a
conjunction. -/
theorem exists_chain_both (hn : (tokens 2 e).length ≤ n) :
    ∃ a others, Chain (withinDepth n) 2 (tokens 2 e) a others ∧
      a :: others.map Prod.snd = pieces [e] := by
  by_cases hsame : strength e = 2
  · rw [tokens_eq hsame.ge] at hn ⊢
    exact (h n hn).both hsame
  · have hpieces : pieces [e] = [reading e] := by
      cases e <;> first | rfl | exact absurd rfl hsame
    exact ⟨reading e, [], .single (reads_tighter h (by omega) hsame hn), by rw [hpieces]; rfl⟩

end Places

/-! ## Expressions -/

/-- An operand has no more tokens than the whole it is in.  So a bound on the tokens of the whole is
one for each of its operands. -/
theorem length_le_intercalate {tss : List (List Token)} (h : ts ∈ tss) :
    ts.length ≤ ([t].intercalate tss).length := by
  induction tss with
  | nil => cases h
  | cons us tss ih =>
      cases tss with
      | nil =>
          obtain rfl := List.mem_singleton.mp h
          simp
      | cons vs tss =>
          rw [List.intercalate_cons_cons, List.length_append, List.length_append]
          rcases List.mem_cons.mp h with rfl | hlater
          · omega
          · have hle := ih hlater
            omega

/-- Chains with the same operator between them are a chain, and its operands are those of all of
them in their order. -/
theorem exists_chain_intercalate {f : Expr → List Token} {g : Expr → List Expr}
    (ht : t.strength? = some k) (hne : es ≠ [])
    (h : ∀ e ∈ es, ∃ a others, Chain whole k (f e) a others ∧ a :: others.map Prod.snd = g e) :
    ∃ a others, Chain whole k ([t].intercalate (es.map f)) a others ∧
      a :: others.map Prod.snd = es.flatMap g := by
  induction es with
  | nil => exact absurd rfl hne
  | cons e es ih =>
      obtain ⟨a, others, hchain, hg⟩ := h e List.mem_cons_self
      cases es with
      | nil => exact ⟨a, others, by simpa using hchain, by simpa using hg⟩
      | cons e' es =>
          obtain ⟨b, later, hrest, hlater⟩ :=
            ih (List.cons_ne_nil _ _) fun e he => h e (List.mem_cons_of_mem _ he)
          refine ⟨a, others ++ (t, b) :: later, ?_, ?_⟩
          · rw [List.map_cons, List.map_cons, List.intercalate_cons_cons, ← List.map_cons,
              List.append_assoc, List.singleton_append]
            exact hchain.append ht hrest
          · rw [List.flatMap_cons, ← hg, ← hlater, List.map_append, List.map_cons, List.cons_append]

/-- An operator that joins from the left.  The left side is a chain that goes on with the operator,
and the right side is read at the next tighter level. -/
theorem Understood.of_chain {left : Expr} (hk : k = 4 ∨ k = 5 ∨ k = 6) (hstrength : strength e = k)
    (htokens : tokens 0 e = ts ++ t :: us) (ht : t.strength? = some k)
    (hreading : reading e = binary t (reading left) b)
    (hleft : ∃ a others, Chain (withinDepth n) k ts a others ∧ leftwards a others = reading left)
    (hright : Reads (withinDepth n) (k + 1) us b) : Understood e n := by
  obtain ⟨a, others, hchain, hvalue⟩ := hleft
  have hmore := hchain.more ht hright
  have hjoined : leftwards a (others ++ [(t, b)]) = reading e := by
    rw [hreading, ← hvalue, leftwards, List.foldl_append]
    rfl
  have hreads : Reads (withinDepth n) k (tokens 0 e) (reading e) := by
    rw [htokens, ← hjoined]
    have hchained := hmore.reads (by unfold Joins; omega)
    obtain rfl | rfl | rfl := hk <;> exact hchained
  subst hstrength
  exact ⟨hreads, fun _ => ⟨a, _, htokens ▸ hmore, hjoined⟩, fun h => by omega⟩

/-- An expression that nothing is part of a chain with: a choice, a disjunction or a negation. -/
theorem Understood.of_reads (hstrength : strength e = 1 ∨ strength e = 3 ∨ strength e = 0)
    (h : Reads (withinDepth n) (strength e) (tokens 0 e) (reading e)) : Understood e n :=
  ⟨h, fun hleft => by omega, fun hboth => by omega⟩

/-- A literal or a name.  It is read as an operand, and looser levels follow from that. -/
theorem Understood.of_operand (hstrength : strength e = 7) (hne : tokens 0 e ≠ [])
    (hneg : .mark '!' ∉ (tokens 0 e).head?)
    (hread : ∀ rest, Stops 7 rest →
      operand (withinDepth n) (tokens 0 e ++ rest) = some (reading e, rest)) : Understood e n := by
  refine ⟨⟨hne, fun _ => hneg, fun rest hstop => ?_⟩, fun h => by omega, fun h => by omega⟩
  rw [hstrength] at hstop ⊢
  exact hread rest hstop

/-- A numeral has a token at least, and does not begin with the mark of a negation. -/
theorem numeral_ne_nil (negative : Bool) (mantissa places : Nat) :
    numeral negative mantissa places ≠ [] ∧ .mark '!' ∉ (numeral negative mantissa places).head? := by
  obtain ⟨text, later, hmagnitude, -⟩ := exists_magnitude mantissa places
  cases negative <;> simp [numeral, hmagnitude]

/-- A word that is a name is read as the variable. -/
theorem operand_name {name : String} (h : IsName name) (rest : List Token) :
    operand whole (.word name.toList :: rest) = some (.var name, rest) := by
  have htrue : name.toList ≠ "true".toList := fun heq => h.ne_true (String.toList_inj.mp heq)
  have hfalse : name.toList ≠ "false".toList := fun heq => h.ne_false (String.toList_inj.mp heq)
  have hdigit : ¬ name.toList.head?.any Char.isDigit := Bool.eq_false_iff.mp h.not_digit
  rw [operand, if_neg hdigit, named, if_neg htrue, if_neg hfalse, String.ofList_toList]

/-- A negation is read as far as its operand is. -/
theorem reads_neg (h : Reads whole 3 ts e) : Reads whole 3 (.mark '!' :: ts) (.neg e) := by
  refine ⟨List.cons_ne_nil _ _, fun h => absurd h (by decide), fun rest hstop => ?_⟩
  have hoperand : negation whole (ts ++ rest) = some (e, rest) := h.read rest hstop
  change negation whole (.mark '!' :: (ts ++ rest)) = _
  rw [negation, hoperand]
  rfl

/-- A choice is read as far as its last branch is.  The condition and the first branch stand before
marks that are no operators, so they stop there. -/
theorem reads_cond {c yes no : Expr} {vs : List Token} (hc : Reads (withinDepth (n + 1)) 1 ts c)
    (hyes : Reads (withinDepth (n + 1)) 1 us yes) (hno : Reads (withinDepth n) 0 vs no) :
    Reads (withinDepth (n + 1)) 0 (ts ++ .mark '?' :: us ++ .mark ':' :: vs) (.cond c yes no) := by
  refine ⟨by simp, nofun, fun rest hstop => ?_⟩
  have htokens : ts ++ .mark '?' :: us ++ .mark ':' :: vs ++ rest =
      ts ++ .mark '?' :: (us ++ .mark ':' :: (vs ++ rest)) := by simp
  have hcondition : disjunction (withinDepth (n + 1))
      (ts ++ .mark '?' :: (us ++ .mark ':' :: (vs ++ rest))) = some (c, .mark '?' :: (us ++ .mark ':' :: (vs ++ rest))) := by
    refine hc.read _ (stops_cons fun strength hs => ?_)
    obtain rfl := Option.some.inj hs
    exact Nat.zero_lt_one
  have hupcoming : upcoming (· == .mark '?') (.mark '?' :: (us ++ .mark ':' :: (vs ++ rest))) =
      some (true, .mark '?' :: (us ++ .mark ':' :: (vs ++ rest))) := rfl
  have hmark : skip "?" (.mark '?' :: (us ++ .mark ':' :: (vs ++ rest))) =
      some ((), us ++ .mark ':' :: (vs ++ rest)) := skip_mark (by decide) _
  have hbranch : disjunction (withinDepth (n + 1)) (us ++ .mark ':' :: (vs ++ rest)) =
      some (yes, .mark ':' :: (vs ++ rest)) := hyes.read _ (stops_cons nofun)
  have hcolon : skip ":" (.mark ':' :: (vs ++ rest)) = some ((), vs ++ rest) := skip_mark (by decide) _
  have hlast : withinDepth (n + 1) (vs ++ rest) = some (no, rest) := hno.read rest hstop
  rw [htokens]
  change choice (withinDepth (n + 1)) _ = _
  rw [choice, bind_eq hcondition, bind_eq hupcoming, if_pos rfl, bind_eq hmark, bind_eq hbranch,
    bind_eq hcolon, bind_eq hlast]
  rfl

section Operands

variable (hne : es ≠ []) (h : ∀ e ∈ es, ∀ n, (tokens 0 e).length ≤ n → Understood e n)

include hne h

/-- The operands of a conjunction are one chain, with those of conjunctions among them.  The
induction hypothesis gives a chain for each operand, and the chains are put together. -/
theorem understood_conj (hn : (tokens 0 (.conj es)).length ≤ n) : Understood (.conj es) n := by
  have htokens : tokens 0 (.conj es) = [.mark '&'].intercalate (es.map (tokens 2)) := by
    rw [tokens, tokensAll_eq_map]
    rfl
  rw [htokens] at hn
  obtain ⟨a, others, hchain, hpieces⟩ := exists_chain_intercalate (t := .mark '&') (k := 2) rfl hne
    fun e he => exists_chain_both (h e he)
      ((length_le_intercalate (List.mem_map_of_mem he)).trans hn)
  rw [← Expr.pieces_eq_flatMap] at hpieces
  have hreading : joinAt 2 a others = reading (.conj es) := by
    rw [reading, ← hpieces]
    rfl
  refine ⟨?_, fun h => by simp [strength] at h, fun _ => ⟨a, others, htokens ▸ hchain, ?_⟩⟩
  · rw [htokens, ← hreading]
    exact hchain.reads (by simp [Joins])
  · rw [hpieces, pieces, pieces, List.append_nil]

/-- The operands of a disjunction bind more strongly than conjunctions do, or are in brackets.  So
each is one operand of the chain. -/
theorem understood_disj (hn : (tokens 0 (.disj es)).length ≤ n) : Understood (.disj es) n := by
  have htokens : tokens 0 (.disj es) = [.mark '|'].intercalate (es.map (tokens 3)) := by
    rw [tokens, tokensAll_eq_map]
    rfl
  rw [htokens] at hn
  have hplace : ∀ e ∈ es, ∃ a others, Chain (withinDepth n) 1 (tokens 3 e) a others ∧
      a :: others.map Prod.snd = [reading e] := by
    intro e he
    have hreads := reads_place (k := 3) (h e he) (by omega)
      ((length_le_intercalate (List.mem_map_of_mem he)).trans hn)
    exact ⟨reading e, [], .single (hreads.looser (by omega) (by omega)), rfl⟩
  obtain ⟨a, others, hchain, hreadings⟩ :=
    exists_chain_intercalate (t := .mark '|') (k := 1) rfl hne hplace
  rw [← Expr.readings_eq_flatMap] at hreadings
  have hreading : joinAt 1 a others = reading (.disj es) := by
    rw [reading, ← hreadings]
    rfl
  refine .of_reads (.inl rfl) ?_
  rw [htokens, ← hreading]
  exact hchain.reads (by simp [Joins])

end Operands

/-- **A written expression** is read as what it was.  By induction on the expression; each case is
one of the lemmas above, applied to the places that its parts are written in. -/
theorem understood (h : e.Legible) : ∀ n, (tokens 0 e).length ≤ n → Understood e n := by
  induction h with
  | bool value =>
      intro n hn
      refine .of_operand rfl (List.cons_ne_nil _ _) (by simp [tokens]) fun rest _ => ?_
      cases value <;> rfl
  | int value =>
      intro n hn
      obtain ⟨hne, hneg⟩ := numeral_ne_nil (value < 0) value.natAbs 0
      exact .of_operand rfl hne hneg fun rest hstop => operand_int _ value hstop.no_point
  | real value =>
      intro n hn
      obtain ⟨hne, hneg⟩ :=
        numeral_ne_nil value.isNegative value.normalize.mantissa value.normalize.scale
      exact .of_operand rfl hne hneg fun rest hstop => operand_real _ value hstop.no_point
  | var hname =>
      intro n hn
      exact .of_operand rfl (List.cons_ne_nil _ _) (by simp [tokens]) fun rest _ =>
        operand_name hname rest
  | conj hne _ ih => exact fun n hn => understood_conj hne ih hn
  | disj hne _ ih => exact fun n hn => understood_disj hne ih hn
  | neg _ ih =>
      intro n hn
      simp only [tokens, wrap, Nat.not_lt_zero, if_false, List.length_cons] at hn
      have hoperand := reads_place (k := 3) (n := n) ih (by omega) (by omega)
      exact .of_reads (.inr (.inl rfl)) (reads_neg hoperand)
  | @eq a b _ _ iha ihb | @ne a b _ _ iha ihb =>
      intro n hn
      simp only [tokens, wrap, Nat.not_lt_zero, if_false, List.length_append, List.length_cons] at hn
      have hleft := reads_place (k := 5) (n := n) iha (by omega) (by omega)
      have hright := reads_place (k := 5) (n := n) ihb (by omega) (by omega)
      exact .of_chain (k := 4) (.inl rfl) rfl rfl rfl rfl ⟨_, [], .single hleft, rfl⟩ hright
  | @cond c yes no _ _ _ ihc ihyes ihno =>
      intro n hn
      simp only [tokens, wrap, Nat.not_lt_zero, if_false, List.length_append, List.length_cons] at hn
      obtain ⟨n, rfl⟩ : ∃ m, n = m + 1 := ⟨n - 1, by omega⟩
      have hc := reads_place (k := 1) (n := n + 1) ihc (by omega) (by omega)
      have hyes := reads_place (k := 1) (n := n + 1) ihyes (by omega) (by omega)
      have hno := reads_place (k := 0) (n := n) ihno (by omega) (by omega)
      exact .of_reads (.inr (.inr rfl)) (reads_cond hc hyes hno)
  | @sub a b _ _ iha ihb =>
      intro n hn
      simp only [tokens, wrap, Nat.not_lt_zero, if_false, List.length_append, List.length_cons] at hn
      have hleft := exists_chain_left (n := n) iha (.inl rfl) (by omega)
      have hright := reads_place (k := 6) (n := n) ihb (by omega) (by omega)
      exact .of_chain (k := 5) (.inr (.inl rfl)) rfl rfl rfl rfl hleft hright
  | @mul a b _ _ iha ihb | @div a b _ _ iha ihb =>
      intro n hn
      simp only [tokens, wrap, Nat.not_lt_zero, if_false, List.length_append, List.length_cons] at hn
      have hleft := exists_chain_left (n := n) iha (.inr rfl) (by omega)
      have hright := reads_place (k := 7) (n := n) ihb (by omega) (by omega)
      exact .of_chain (k := 6) (.inr (.inr rfl)) rfl rfl rfl rfl hleft hright

/-- **Reading a written expression** from any place, up to something that does not go on with it.
The depth that the grammar allows is the number of the tokens, which is always enough. -/
theorem expression_tokens (h : e.Legible) (hk : k ≤ 7) (hstop : Stops 0 rest) :
    Grammar.expression (tokens k e ++ rest) = some (reading e, rest) := by
  have hget : (get : Reader (List Token)) (tokens k e ++ rest) =
      some (tokens k e ++ rest, tokens k e ++ rest) := rfl
  have hlength : (tokens k e).length ≤ (tokens k e ++ rest).length := by
    rw [List.length_append]
    omega
  rw [Grammar.expression, bind_eq hget]
  exact ((reads_place (understood h) hk hlength).looser hk (Nat.zero_le k)).read rest hstop

/-! ## What is no expression -/

/-- Where no operand can be read, nothing can, for every level begins with an operand or with the
mark of a negation. -/
theorem level_eq_none (h : operand whole ts = none) (hneg : .mark '!' ∉ ts.head?) (hk : k ≤ 7) :
    level whole k ts = none := by
  obtain ⟨d, hd⟩ := Nat.exists_eq_add_of_le hk
  induction d generalizing k with
  | zero =>
      obtain rfl : k = 7 := by omega
      exact h
  | succ d ih =>
      have htighter := ih (k := k + 1) (by omega) (by omega)
      by_cases hjoins : Joins k
      · rw [level_eq_chain hjoins, chain]
        exact bind_eq_none (bind_eq_none htighter)
      · have hrest : k = 0 ∨ k = 3 := by
          unfold Joins at hjoins
          omega
        obtain rfl | rfl := hrest
        · exact bind_eq_none htighter
        · change negation whole ts = none
          unfold negation
          split
          next => exact absurd rfl hneg
          next => exact htighter

/-- A name in brackets that are not closed behind it is no expression.  This is how assignments are
told from probabilities. -/
theorem expression_unclosed {name : String} (h : IsName name) (ht : t.strength? = none)
    (hclose : t ≠ .mark ')') (rest : List Token) :
    Grammar.expression (.mark '(' :: .word name.toList :: t :: rest) = none := by
  set ts := .mark '(' :: .word name.toList :: t :: rest with hts
  have hget : (get : Reader (List Token)) ts = some (ts, ts) := rfl
  obtain ⟨n, hn⟩ : ∃ n, ts.length = n + 1 := ⟨_, rfl⟩
  have hstop : Stops 0 (t :: rest) := stops_cons (by simp [ht])
  have hname : withinDepth (n + 1) (.word name.toList :: t :: rest) = some (.var name, t :: rest) := by
    have hlength : (tokens 0 (.var name)).length ≤ n := by
      simp only [hts, List.length_cons] at hn
      simp only [tokens, List.length_singleton]
      omega
    exact (reads_place (understood (.var h)) (Nat.zero_le 7) hlength).read _ hstop
  have hskip : skip ")" (t :: rest) = none :=
    skip_eq_none (t := .mark ')') (by decide) (by simpa using hclose)
  have hoperand : operand (withinDepth (n + 1)) ts = none := by
    rw [hts, operand, bind_eq hname]
    exact bind_eq_none hskip
  rw [Grammar.expression, bind_eq hget, hn]
  exact level_eq_none hoperand (by simp [hts]) (Nat.zero_le 7)

end Sokoban.Prism
