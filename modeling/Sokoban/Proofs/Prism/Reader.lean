import Sokoban.Proofs.Prism.Tokens

/-! # Readers

A reader takes what it reads off the front of the tokens and leaves the rest, or fails.  Readers are
put together in a monad, so a proof about one follows it step by step:  `bind_eq` and `bind_eq_none`
say what a step does when its first half succeeds or fails.

A loop is run with a bound on its length, the number of tokens, so that it is a recursion on a
number.  What a loop reads is described without this bound by `Reader.Repeats`; the loop has this
result (`Reader.Repeats.repeated_eq`), since every item takes a token at least.  Nothing else speaks
of the bound.

Items that are written one behind the other, or with a token between them, are read one by one
(`Repeats.of_items`, `listed_intercalate`).  Each may ask for something of what comes next, which is
given as a predicate on the tokens behind it.
-/

namespace Sokoban.Prism

/-- Reads something off the front of tokens, if they begin with it. -/
abbrev Reader := StateT (List Token) Option

namespace Reader

variable {α : Type}

/-- Reads one token. -/
def next : Reader Token
  | [] => none
  | token :: rest => some (token, rest)

/-- Reads any word. -/
def word : Reader String
  | .word text :: rest => some (.ofList text, rest)
  | _ => none

/-- Reads a fixed text, blanks apart. -/
def skip (text : String) : Reader Unit := fun tokens =>
  let fixed := lex text.toList
  if fixed.isPrefixOf tokens then some ((), tokens.drop fixed.length) else none

/-- Whether the next token is of a kind. -/
def upcoming (kind : Token → Bool) : Reader Bool := fun tokens =>
  some (tokens.head?.any kind, tokens)

/-- Reads items for as long as the next token is of a kind; there may be fewer than `n` of them. -/
def many (kind : Token → Bool) (item : Reader α) : Nat → Reader (List α)
  | 0 => failure
  | n + 1 => do
    if ← upcoming kind then
      let first ← item
      return first :: (← many kind item n)
    else
      return []

/-- Reads items for as long as the next token is of a kind. -/
def repeated (kind : Token → Bool) (item : Reader α) : Reader (List α) := do
  many kind item ((← get).length + 1)

/-- Reads a token and an item behind it. -/
def behind (item : Reader α) : Reader (Token × α) := do
  let separator ← next
  return (separator, ← item)

/-- Reads one item or more with tokens of a kind between them, and keeps these tokens. -/
def separated (kind : Token → Bool) (item : Reader α) : Reader (α × List (Token × α)) := do
  let first ← item
  return (first, ← repeated kind (behind item))

/-- Reads one item or more with tokens of a kind between them. -/
def listed (kind : Token → Bool) (item : Reader α) : Reader (List α) := do
  let (first, others) ← separated kind item
  return first :: others.map Prod.snd

end Reader

namespace Reader

variable {α β : Type} {r item : Reader α} {f : α → Reader β} {kind : Token → Bool} {a x : α}
  {xs : List α} {ts us rest : List Token} {t separator : Token}

/-! ## Steps -/

/-- A step goes on from what its first half has read. -/
theorem bind_eq (h : r ts = some (a, us)) : (r >>= f) ts = f a us := by
  change (r ts).bind (fun x => f x.1 x.2) = f a us
  rw [h]
  rfl

/-- A fixed text is passed over, as the tokens that it is. -/
theorem skip_append (text : String) (rest : List Token) :
    skip text (lex text.toList ++ rest) = some ((), rest) := by
  have hprefix : (lex text.toList).isPrefixOf (lex text.toList ++ rest) :=
    List.isPrefixOf_iff_prefix.mpr (List.prefix_append _ _)
  simp only [skip, if_pos hprefix, List.drop_left]

/-- A text of one token passes over this token. -/
theorem skip_mark {text : String} (h : lex text.toList = [t]) (rest : List Token) :
    skip text (t :: rest) = some ((), rest) := by
  have hskip := skip_append text rest
  rwa [h] at hskip

/-- A text of one token fails at any other. -/
theorem skip_eq_none {text : String} (h : lex text.toList = [t]) (ht : t ∉ ts.head?) :
    skip text ts = none := by
  have hprefix : ¬ (lex text.toList).isPrefixOf ts := by
    rw [h, List.isPrefixOf_iff_prefix]
    rintro ⟨rest, rfl⟩
    exact ht rfl
  simp only [skip, if_neg hprefix]

/-- A word is read as the name that it is. -/
theorem word_cons (name : String) (rest : List Token) :
    word (.word name.toList :: rest) = some (name, rest) := by
  rw [word, String.ofList_toList]

/-- A step fails if its first half does. -/
theorem bind_eq_none (h : r ts = none) : (r >>= f) ts = none := by
  change (r ts).bind (fun x => f x.1 x.2) = none
  rw [h]
  rfl

/-- What may be left out is read if it is there. -/
theorem optional_eq (h : r ts = some (a, us)) : optional r ts = some (some a, us) := by
  change ((r ts).bind (fun x => some (some x.1, x.2)) <|> some (none, ts)) = some (some a, us)
  rw [h]
  rfl

/-- What may be left out is left out if it cannot be read, and no token is lost. -/
theorem optional_eq_none (h : r ts = none) : optional r ts = some (none, ts) := by
  change ((r ts).bind (fun x => some (some x.1, x.2)) <|> some (none, ts)) = some (none, ts)
  rw [h]
  rfl

/-! ## Loops -/

/-- What a loop reads: items for as long as the next token is of the kind, each taking a token at
least. -/
inductive Repeats (kind : Token → Bool) (item : Reader α) :
    List Token → List α → List Token → Prop
  | done {ts : List Token} (h : ts.head?.any kind = false) : Repeats kind item ts [] ts
  | more {ts us rest : List Token} {x : α} {xs : List α} (hkind : ts.head?.any kind)
      (hitem : item ts = some (x, us)) (hless : us.length < ts.length)
      (hrest : Repeats kind item us xs rest) : Repeats kind item ts (x :: xs) rest

/-- With a bound above the number of tokens, the loop has the result that is described.  By
induction on the description. -/
theorem Repeats.many_eq (h : Repeats kind item ts xs rest) {n : Nat} (hn : ts.length < n) :
    many kind item n ts = some (xs, rest) := by
  induction h generalizing n with
  | @done ts h =>
      obtain ⟨n, rfl⟩ : ∃ k, n = k + 1 := ⟨n - 1, by omega⟩
      have hkind : upcoming kind ts = some (false, ts) := by rw [upcoming, h]
      rw [many, bind_eq hkind]
      rfl
  | @more ts us rest x xs hkind hitem hless hrest ih =>
      obtain ⟨n, rfl⟩ : ∃ k, n = k + 1 := ⟨n - 1, by omega⟩
      have hmore : upcoming kind ts = some (true, ts) := by rw [upcoming, hkind]
      rw [many, bind_eq hmore, if_pos rfl, bind_eq hitem, bind_eq (ih (by omega))]
      rfl

/-- **A loop** reads items up to the first token of another kind.  Each item takes a token at least,
so the length of the text is fuel enough. -/
theorem Repeats.repeated_eq (h : Repeats kind item ts xs rest) :
    repeated kind item ts = some (xs, rest) := by
  have hget : (get : Reader (List Token)) ts = some (ts, ts) := rfl
  rw [repeated, bind_eq hget]
  exact h.many_eq (Nat.lt_succ_self _)

/-- An item behind a token is read with the token. -/
theorem behind_cons (h : item ts = some (a, rest)) : behind item (t :: ts) = some ((t, a), rest) := by
  have hnext : next (t :: ts) = some (t, ts) := rfl
  rw [behind, bind_eq hnext, bind_eq h]
  rfl

/-- Items with tokens between them: the first, and then as many as the loop reads. -/
theorem separated_eq {others : List (Token × α)} (hfirst : item ts = some (a, us))
    (hothers : Repeats kind (behind item) us others rest) :
    separated kind item ts = some ((a, others), rest) := by
  rw [separated, bind_eq hfirst, bind_eq hothers.repeated_eq]
  rfl

variable {ι : Type} {items : List ι} {tokens : ι → List Token} {value : ι → α}

/-- Items are read one by one.  Each of them may ask for something of the tokens behind it, as long
as the first token of an item does for that.  By induction on the items, from the last to the first.
-/
theorem Repeats.of_items (ok : List Token → Prop) (hok : ∀ t us, kind t → ok (t :: us))
    (hitems : ∀ i ∈ items, (∃ t us, tokens i = t :: us ∧ kind t) ∧
      ∀ rest, ok rest → item (tokens i ++ rest) = some (value i, rest))
    (hrest : rest.head?.any kind = false) (hrestok : ok rest) :
    ok (items.flatMap tokens ++ rest) ∧
      Repeats kind item (items.flatMap tokens ++ rest) (items.map value) rest := by
  induction items with
  | nil => exact ⟨hrestok, .done hrest⟩
  | cons i items ih =>
      obtain ⟨⟨t, us, htokens, hkind⟩, hread⟩ := hitems i List.mem_cons_self
      obtain ⟨hlater, hloop⟩ := ih fun j hj => hitems j (List.mem_cons_of_mem i hj)
      have hitem := hread _ hlater
      rw [List.flatMap_cons, List.append_assoc]
      rw [htokens] at hitem ⊢
      refine ⟨hok t _ hkind, .more hkind hitem ?_ hloop⟩
      simp only [List.cons_append, List.length_append, List.length_cons]
      omega

/-- Items with a token between them are the first item, and the others with that token in front of
each. -/
theorem intercalate_cons_flatMap (separator : Token) (i : ι) (items : List ι) :
    [separator].intercalate ((i :: items).map tokens) =
      tokens i ++ items.flatMap fun j => separator :: tokens j := by
  induction items generalizing i with
  | nil => simp
  | cons j items ih =>
      rw [List.map_cons, List.map_cons, List.intercalate_cons_cons, ← List.map_cons, ih]
      simp

/-- **A list** of items with the same token between them is read as the items.  The token in front
of each item but the first is what the loop looks for. -/
theorem listed_intercalate (ok : List Token → Prop) (hkind : kind separator)
    (hok : ∀ t us, kind t → ok (t :: us))
    (hne : items ≠ [])
    (hitems : ∀ i ∈ items, ∀ rest, ok rest → item (tokens i ++ rest) = some (value i, rest))
    (hrest : rest.head?.any kind = false) (hrestok : ok rest) :
    listed kind item ([separator].intercalate (items.map tokens) ++ rest) =
      some (items.map value, rest) := by
  obtain ⟨i, items, rfl⟩ := List.exists_cons_of_ne_nil hne
  have hloop : ok (items.flatMap (fun j => separator :: tokens j) ++ rest) ∧
      Repeats kind (behind item) (items.flatMap (fun j => separator :: tokens j) ++ rest)
        (items.map fun j => (separator, value j)) rest := by
    refine Repeats.of_items ok hok (fun j hj => ⟨⟨separator, tokens j, rfl, hkind⟩, ?_⟩) hrest hrestok
    intro rest hrest
    exact behind_cons (hitems j (List.mem_cons_of_mem i hj) rest hrest)
  rw [intercalate_cons_flatMap, List.append_assoc, listed,
    bind_eq (separated_eq (hitems i List.mem_cons_self _ hloop.1) hloop.2)]
  simp [List.map_map, Function.comp_def]
  rfl

end Reader

end Sokoban.Prism
