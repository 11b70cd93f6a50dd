import Sem3.Blatt06.Proofs.ScanProofs
import Mathlib.Data.List.TakeWhile

/-!
# Proofs: the grammar

`scan` follows the lexer of the grammar: it ends the same words, drops those that are empty, and does
not look at the place behind a last variable. How the variables are taken out of a line changes
neither the places nor the number of the words.
-/

namespace Sem3.Blatt06

variable {env : List (List Char)} {hang behind : Bool} {ch : Char} {name before : List Char}
  {out ws : List (List Char)} {i : Item} {a b is s : List Item} {run : Item → Bool} {place : Place}
  {line : List Char} {paramList : List (List Char)}

theorem isSet_var : (Item.var before name).IsSet env ↔ getenv env name ≠ none := by
  refine ⟨And.right, fun h => ⟨?_, h⟩⟩
  rintro rfl
  exact h rfl

/-! ## The parameters that are kept -/

/-- The words without the empty ones; the last one stays if `last`. -/
def kept (last : Bool) (ws : List (List Char)) : List (List Char) :=
  if last then ws.dropLast.filter (· ≠ []) ++ ws.getLast?.toList else ws.filter (· ≠ [])

theorem kept_cons {last : Bool} {w : List Char} (h : last = true → ws ≠ []) :
    kept last (w :: ws) = nonempty w ++ kept last ws := by
  cases last with
  | false => by_cases hw : w = [] <;> simp [kept, nonempty, hw]
  | true =>
    obtain ⟨w', ws, rfl⟩ := List.exists_cons_of_ne_nil (h rfl)
    by_cases hw : w = [] <;> simp [kept, nonempty, hw, List.dropLast]

theorem dropLast_append_getLast (ws : List (List Char)) :
    ws.dropLast ++ ws.getLast?.toList = ws := by
  rcases List.eq_nil_or_concat ws with rfl | ⟨ws, w, rfl⟩ <;> simp

theorem kept_sublist (last : Bool) (ws : List (List Char)) : (kept last ws).Sublist ws := by
  unfold kept
  split_ifs
  · have h : (ws.dropLast.filter (· ≠ []) ++ ws.getLast?.toList).Sublist
        (ws.dropLast ++ ws.getLast?.toList) := List.filter_sublist.append (List.Sublist.refl _)
    rwa [dropLast_append_getLast] at h
  · exact List.filter_sublist

/-- All words are kept if and only if none of those that can be left out is empty. -/
theorem kept_eq_self_iff {last : Bool} :
    kept last ws = ws ↔ ∀ w ∈ if last then ws.dropLast else ws, w ≠ [] := by
  unfold kept
  split_ifs
  · conv_lhs => rhs; rw [← dropLast_append_getLast ws]
    simp [List.filter_eq_self]
  · simp [List.filter_eq_self]

/-! ## Along the lexer -/

/-- The value of the word under construction. -/
def bufOf (env : List (List Char)) (place : Place) (a : List Item) : List Char :=
  if place = .between then [] else a.flatMap (Item.value env)

/-- The last item, if there is one, is a variable. -/
def behindVar (behind : Bool) (is : List Item) : Bool := (is.getLast?.map Item.isVar).getD behind

theorem behindVar_cons (behind : Bool) (i : Item) (is : List Item) :
    behindVar behind (i :: is) = behindVar i.isVar is := by
  rcases List.eq_nil_or_concat is with rfl | ⟨is, j, rfl⟩
  · rfl
  · simp [behindVar, List.getLast?_cons]

/-- Only a space ends a word, and only outside of quoted sections. -/
theorem emits_iff : grammar.emits place i = true ↔ place = .word ∧ i = .char ' ' := by
  simp [grammar]

/-- An item that does not end a word is read alike by both. -/
theorem scan_item (hset : i.IsSet env) (he : grammar.emits place i = false) :
    scan env hang place.closing behind (bufOf env place a) out (i :: is) =
      scan env hang (grammar.next place i).closing i.isVar
        (bufOf env (grammar.next place i) (grammar.put place a i)) out is := by
  cases i with
  | var before name =>
    obtain ⟨value, hvalue⟩ := Option.ne_none_iff_exists'.1 hset.2
    cases place <;>
      simp [scan, grammar, Place.closing, bufOf, Item.value, hvalue, Item.isVar, List.flatMap_append]
  | escaped ch =>
    cases place <;>
      simp [scan, grammar, Place.closing, bufOf, Item.value, Item.isVar, List.flatMap_append]
  | char ch =>
    cases place with
    | dQuote =>
      by_cases hc : ch = '"' <;>
        simp [scan, grammar, Place.closing, bufOf, Item.value, Item.isVar, hc]
    | quote =>
      by_cases hc : ch = '\'' <;>
        simp [scan, grammar, Place.closing, bufOf, Item.value, Item.isVar, hc]
    | word =>
      have hs : ch ≠ ' ' := by
        rintro rfl
        cases he.symm.trans (emits_iff.2 ⟨rfl, rfl⟩)
      by_cases hd : ch = '"'
      · simp [scan, grammar, Place.closing, bufOf, IsQuote, Item.isVar, hd]
      · by_cases hq : ch = '\'' <;>
          simp [scan, grammar, Place.closing, bufOf, IsQuote, Item.value, Item.isVar, hs, hd, hq]
    | between =>
      by_cases hs : ch = ' '
      · simp [scan, grammar, Place.closing, bufOf, Item.isVar, nonempty, hs]
      · by_cases hd : ch = '"'
        · simp [scan, grammar, Place.closing, bufOf, IsQuote, Item.isVar, hd]
        · by_cases hq : ch = '\'' <;>
            simp [scan, grammar, Place.closing, bufOf, IsQuote, Item.value, Item.isVar, hs, hd, hq]

/-- A variable that is not set ends the program. -/
theorem scan_unset (hunset : ∃ i ∈ is, ¬ i.IsSet env) :
    ∀ close behind buf out, scan env hang close behind buf out is = none := by
  induction is with
  | nil =>
    obtain ⟨i, hi, -⟩ := hunset
    exact absurd hi List.not_mem_nil
  | cons i is ih =>
    intro close behind buf out
    by_cases hi : i.IsSet env
    · obtain ⟨j, hj, hunset⟩ := hunset
      have hrest := ih ⟨j, (List.mem_cons.1 hj).resolve_left fun h => hunset (h ▸ hi), hunset⟩
      cases i with
      | var before name =>
        rw [scan]
        exact Option.bind_eq_none_iff.2 fun value _ => hrest _ _ _ _
      | escaped ch => exact hrest _ _ _ _
      | char ch =>
        cases close <;> rw [scan] <;> split_ifs <;> exact hrest _ _ _ _
    · cases i with
      | var before name =>
        rw [isSet_var, not_not] at hi
        rw [scan, hi, Option.bind_none]
      | escaped ch => exact absurd trivial hi
      | char ch => exact absurd trivial hi

/-- `scan` comes to an end behind a variable, or outside of a section if no backslash hangs. -/
theorem scan_isSome (hang : Bool) (hset : ∀ i ∈ is, i.IsSet env) :
    ∀ place behind a out, (scan env hang place.closing behind (bufOf env place a) out is).isSome ↔
      behindVar behind is ∨ ((grammar.run is place).closing = none ∧ ¬ hang) := by
  induction is with
  | nil =>
    intro place behind a out
    show (scan env hang place.closing behind (bufOf env place a) out []).isSome ↔
      behind ∨ (place.closing = none ∧ ¬ hang)
    rw [scan]
    split_ifs with hb hend
    · simp [hb]
    · simp [hend]
    · simp only [hb, hend, Option.isSome_none, or_self, Bool.false_eq_true]
  | cons i is ih =>
    intro place behind a out
    obtain ⟨hi, his⟩ := List.forall_mem_cons.1 hset
    rw [behindVar_cons, Lexer.run_cons]
    by_cases he : grammar.emits place i
    · obtain ⟨rfl, rfl⟩ := emits_iff.1 he
      exact ih his .between false a _
    · rw [scan_item hi (by simpa using he)]
      exact ih his _ _ _ _

theorem words_ne_nil (h : behindVar false is = true) (place : Place) (a : List Item) :
    grammar.words is place a ≠ [] := by
  apply Lexer.words_ne_nil
  rcases List.eq_nil_or_concat is with rfl | ⟨is, i, rfl⟩
  · cases h
  · have hvar : i.isVar = true := by simpa [behindVar] using h
    have hrun : grammar.run (is.concat i) place = grammar.next (grammar.run is place) i := by
      rw [List.concat_eq_append]
      exact List.foldl_append
    rw [hrun]
    cases i with
    | var before name => cases grammar.run is place <;> rfl
    | escaped ch => cases hvar
    | char ch => cases hvar

/-- At the end of the line `scan` appends what is in `buf`, if the line may end here. -/
theorem scan_nil (hang : Bool) (hbetween : place = .between → behind = false)
    (hclosed : place.closing = none) (hend : behind = true ∨ hang = false) :
    scan env hang place.closing behind (bufOf env place a) out [] =
      some (out ++ kept behind
        ((grammar.words [] place a).map fun word => word.flatMap (Item.value env))) := by
  cases place with
  | between =>
    obtain rfl := hbetween rfl
    obtain rfl : hang = false := hend.resolve_left (by simp)
    rfl
  | word =>
    cases behind with
    | true => rfl
    | false =>
      obtain rfl : hang = false := hend.resolve_left (by simp)
      have hwords : grammar.words [] .word a = [a] := rfl
      have hbuf : bufOf env .word a = a.flatMap (Item.value env) := rfl
      rw [hwords, hbuf, List.map_singleton, kept_cons (by simp)]
      simp [scan, Place.closing, kept]
  | dQuote => cases hclosed
  | quote => cases hclosed

/-- A space outside of all sections ends a word, which is kept unless it is empty. -/
theorem scan_space (hang : Bool) :
    scan env hang none behind (bufOf env .word a) out (.char ' ' :: is) =
      scan env hang none false [] (out ++ nonempty (a.flatMap (Item.value env))) is := rfl

/-- On a line whose sections are closed `scan` appends the words that are kept. -/
theorem scan_eq_kept (hang : Bool) (hset : ∀ i ∈ is, i.IsSet env) :
    ∀ place behind a out, (place = .between → behind = false) →
      (grammar.run is place).closing = none → (behindVar behind is = true ∨ hang = false) →
      scan env hang place.closing behind (bufOf env place a) out is =
        some (out ++ kept (behindVar behind is)
          ((grammar.words is place a).map fun word => word.flatMap (Item.value env))) := by
  induction is with
  | nil =>
    intro place behind a out hbetween hclosed hend
    exact scan_nil hang hbetween hclosed hend
  | cons i is ih =>
    intro place behind a out hbetween hclosed hend
    obtain ⟨hi, his⟩ := List.forall_mem_cons.1 hset
    rw [behindVar_cons] at hend ⊢
    rw [Lexer.run_cons] at hclosed
    rw [Lexer.words_cons]
    by_cases he : grammar.emits place i
    · obtain ⟨rfl, rfl⟩ := emits_iff.1 he
      have hrest := ih his .between false (grammar.put .word a (.char ' '))
        (out ++ nonempty (a.flatMap (Item.value env))) (fun _ => rfl) hclosed hend
      have hne : behindVar false is = true →
          ((grammar.words is .between (grammar.put .word a (.char ' '))).map fun word =>
            word.flatMap (Item.value env)) ≠ [] := by
        intro h hnil
        exact words_ne_nil h _ _ (List.map_eq_nil_iff.1 hnil)
      have hkept := kept_cons (w := a.flatMap (Item.value env)) hne
      rw [List.append_assoc, ← hkept] at hrest
      rw [if_pos he, List.singleton_append, List.map_cons]
      exact (scan_space hang).trans hrest
    · have hplace : grammar.next place i = .between → i.isVar = false := by
        intro h
        cases i with
        | var before name => cases place <;> cases h
        | escaped ch => rfl
        | char ch => rfl
      rw [scan_item hi (by simpa using he), ih his _ _ _ _ hplace hclosed hend, if_neg he,
        List.nil_append]

/-! ## How the variables are taken out -/

/-- The items of a run stay in the word or in the section that they stand in. -/
def Inert (run : Item → Bool) : Prop :=
  ∀ i, run i = true → ∀ place, place ≠ .between →
    grammar.next place i = place ∧ grammar.emits place i = false

theorem isNameChar_ne (h : isNameChar ch = true) : ch ≠ ' ' ∧ ch ≠ '"' ∧ ch ≠ '\'' := by
  refine ⟨?_, ?_, ?_⟩
  all_goals
    rintro rfl
    exact absurd h (by decide)

/-- A character of a name does not leave the word or the section. -/
theorem inert_char (h : isNameChar ch = true) (hp : place ≠ .between) :
    grammar.next place (.char ch) = place ∧ grammar.emits place (.char ch) = false := by
  obtain ⟨hs, hd, hq⟩ := isNameChar_ne h
  cases place <;> simp [grammar, Place.closing, hs, hd, hq] at hp ⊢

/-- The run that `parse` takes for a name is inert. -/
theorem inert_inRun : Inert Item.inRun := by
  intro i hi place hp
  cases i with
  | char ch => exact inert_char hi hp
  | escaped ch => cases place <;> simp [grammar, Place.closing] at hp ⊢
  | var before name => cases hi

theorem inert_inName : Inert Item.inName := by
  intro i hi place hp
  cases i with
  | char ch => exact inert_char hi hp
  | escaped ch => cases hi
  | var before name => cases hi

/-- Inert items in front of a text change neither where it ends nor the number of its words. -/
theorem Inert.append (h : ∀ i ∈ s, grammar.next place i = place ∧ grammar.emits place i = false)
    (is : List Item) (a b : List Item) :
    grammar.run (s ++ is) place = grammar.run is place ∧
      (grammar.words (s ++ is) place a).length = (grammar.words is place b).length := by
  induction s generalizing a with
  | nil => exact ⟨rfl, Lexer.length_words a b⟩
  | cons i s ih =>
    obtain ⟨⟨hnext, hemits⟩, hs⟩ := List.forall_mem_cons.1 h
    obtain ⟨hrun, hlen⟩ := ih hs (grammar.put place a i)
    rw [List.cons_append, Lexer.run_cons, Lexer.words_cons, hnext, hemits]
    exact ⟨hrun, hlen⟩

theorem next_var (place : Place) (before name : List Char) :
    grammar.next place (.var before name) = grammar.next place (.char '$') ∧
      grammar.next place (.char '$') ≠ .between := by
  cases place <;> simp [grammar, Place.closing]

theorem emits_false (h : i ≠ .char ' ') : grammar.emits place i = false := by
  rw [Bool.eq_false_iff]
  exact fun he => h (emits_iff.1 he).2

/-- The places and the number of the words are those of the line with its variables left as they
stand. -/
theorem withVars_places (hrun : Inert run) (is : List Item) :
    ∀ place a b, grammar.run (withVars run is) place = grammar.run is place ∧
      (grammar.words (withVars run is) place a).length = (grammar.words is place b).length := by
  induction is with
  | nil => exact fun place a b => ⟨rfl, Lexer.length_words a b⟩
  | cons i is ih =>
    intro place a b
    by_cases hi : i = .char '$'
    · subst hi
      rw [withVars_dollar]
      generalize hW : withVars run is = W at ih
      obtain ⟨hnext, hne⟩ := next_var place ((W.takeWhile run).filterMap Item.escaped?)
        ([] ++ (W.takeWhile run).filterMap Item.char?)
      have hinert : ∀ i ∈ W.takeWhile run,
          grammar.next (grammar.next place (.char '$')) i = grammar.next place (.char '$') ∧
            grammar.emits (grammar.next place (.char '$')) i = false :=
        fun i hi => hrun i (List.mem_takeWhile_imp hi) _ hne
      rw [takeVar, Lexer.run_cons, Lexer.run_cons, Lexer.words_cons, Lexer.words_cons, hnext,
        emits_false (by simp), emits_false (by simp)]
      generalize grammar.put place a _ = a'
      generalize grammar.put place b _ = b'
      obtain ⟨h1, h2⟩ := Inert.append hinert (W.dropWhile run) a' a'
      obtain ⟨h3, h4⟩ := ih (grammar.next place (.char '$')) a' b'
      rw [List.takeWhile_append_dropWhile] at h1 h2
      exact ⟨h1.symm.trans h3, h2.symm.trans h4⟩
    · rw [withVars_cons hi, Lexer.run_cons, Lexer.run_cons, Lexer.words_cons, Lexer.words_cons,
        List.length_append, List.length_append]
      obtain ⟨h1, h2⟩ := ih (grammar.next place i) (grammar.put place a i) (grammar.put place b i)
      refine ⟨h1, ?_⟩
      rw [h2]
      split_ifs <;> rfl

/-- Without an escaped character behind the name both runs end at the same item. -/
theorem takeVar_eq (h : ∀ (name : List Char) ch post, (∀ c ∈ name, isNameChar c) →
    is ≠ name.map Item.char ++ .escaped ch :: post) (name : List Char) :
    takeVar Item.inRun name (withVars Item.inName is) =
      takeVar Item.inName name (withVars Item.inName is) := by
  induction is generalizing name with
  | nil => rfl
  | cons i is ih =>
    cases i with
    | var before name' => rfl
    | escaped ch => exact absurd rfl (h [] ch is (by simp))
    | char ch =>
      by_cases hch : isNameChar ch
      · have hd : ch ≠ '$' := by
          rintro rfl
          exact absurd hch (by decide)
        have hrest := ih (fun name d post hname heq => h (ch :: name) d post
          (List.forall_mem_cons.2 ⟨hch, hname⟩) (by rw [heq]; rfl)) (name ++ [ch])
        rw [withVars_cons (by simpa using hd), takeVar_name hch, hrest]
        simp [takeVar, Item.inName, hch, List.filterMap_cons, Item.escaped?, Item.char?]
      · by_cases hd : ch = '$'
        · rw [hd, withVars_dollar]
          rfl
        · have hrun : Item.inRun (.char ch) = false := by simpa [Item.inRun] using hch
          have hname : Item.inName (.char ch) = false := by simpa [Item.inName] using hch
          rw [withVars_cons (by simpa using hd), takeVar_stop hrun, takeVar_stop hname]

/-- Without an escaped character behind a name both runs give the same variables. -/
theorem withVars_eq (h : NoLateEscape is) :
    withVars Item.inRun is = withVars Item.inName is := by
  induction is with
  | nil => rfl
  | cons i is ih =>
    have hrest := ih fun pre name ch post hname heq =>
      h (i :: pre) name ch post hname (by rw [heq]; rfl)
    by_cases hi : i = .char '$'
    · rw [hi, withVars_dollar, withVars_dollar, hrest]
      refine takeVar_eq (fun name ch post hname heq => ?_) []
      exact h [] name ch post hname (by rw [heq, hi]; rfl)
    · rw [withVars_cons hi, withVars_cons hi, hrest]

/-- The order of the escaped characters matters only where one stands behind a name. -/
theorem lateSame_of_noLateEscape (env : List (List Char)) (h : NoLateEscape (items line)) :
    LateSame env line := by
  have heq := withVars_eq h
  refine ⟨⟨?_, ?_⟩, fun _ => by rw [args, args, heq]⟩
  · rintro ⟨hclosed, hcomplete, hset⟩
    exact ⟨hclosed, hcomplete, heq ▸ hset⟩
  · rintro ⟨hclosed, hcomplete, hset⟩
    exact ⟨hclosed, hcomplete, heq ▸ hset⟩

/-! ## The lines that are read as they should be -/

/-- The last item is a variable if and only if the line ends in one. -/
theorem endsInVar_eq (line : List Char) :
    behindVar false (withVars Item.inRun (items line)) = endsInVar line := by
  unfold behindVar endsInVar
  cases (withVars Item.inRun (items line)).getLast? <;> rfl

/-- The number of arguments does not depend on how the variables are taken out. -/
theorem length_args (hrun : Inert run) :
    (args env run line).length = (grammar.words (items line) .between []).length := by
  rw [args, List.length_map]
  exact (withVars_places hrun (items line) .between [] []).2

/-- The sections that are open at the end do not depend on the variables. -/
theorem closing_run (hrun : Inert run) (line : List Char) :
    (grammar.run (withVars run (items line)) .between).closing =
      (grammar.run (items line) .between).closing := by
  rw [(withVars_places hrun (items line) .between [] []).1]

/-- `parse` returns if all variables are set and the line ends behind one, or outside of a section
and without a backslash. -/
theorem returned_iff (env : List (List Char)) (line : List Char) (paramList : List (List Char)) :
    (∃ more l, parse env line paramList = some (.returned more l)) ↔
      Dangles env line ∨ InGrammar env Item.inRun line := by
  rw [exists_comm]
  simp only [parse_returned_iff]
  rw [← Option.isSome_iff_exists]
  by_cases hset : ∀ i ∈ withVars Item.inRun (items line), i.IsSet env
  · have hsome := scan_isSome (hanging line) hset .between false [] paramList
    rw [closing_run inert_inRun, endsInVar_eq] at hsome
    refine hsome.trans ?_
    constructor
    · rintro (hvar | ⟨hclosed, hcomplete⟩)
      · by_cases hopen : (grammar.run (items line) .between).closing ≠ none ∨ hanging line
        · exact .inl ⟨hvar, hset, hopen⟩
        · obtain ⟨hclosed, hcomplete⟩ := not_or.1 hopen
          exact .inr ⟨not_not.1 hclosed, by simpa using hcomplete, hset⟩
      · exact .inr ⟨hclosed, by simpa using hcomplete, hset⟩
    · rintro (⟨hvar, -⟩ | ⟨hclosed, hcomplete, -⟩)
      · exact .inl hvar
      · exact .inr ⟨hclosed, by simp [hcomplete]⟩
  · have hnone : scan env (hanging line) none false [] paramList
        (withVars Item.inRun (items line)) = none := by
      apply scan_unset
      by_contra hno
      exact hset fun i hi => by_contra fun h => hno ⟨i, hi, h⟩
    rw [hnone]
    constructor
    · intro h
      cases h
    · rintro (⟨-, h, -⟩ | ⟨-, -, h⟩)
      · exact absurd h hset
      · exact absurd h hset

/-- On a line of the grammar `parse` returns the arguments without the empty ones, apart from the
last one behind a variable. -/
theorem returned_eq (h : InGrammar env Item.inRun line) {more : Bool} {l : List (List Char)}
    (hret : parse env line paramList = some (.returned more l)) :
    l = paramList ++ kept (endsInVar line) (args env Item.inRun line) := by
  have hscan := (parse_returned_iff env line paramList l).1 ⟨more, hret⟩
  have hkept := scan_eq_kept (hanging line) h.set .between false [] paramList (fun _ => rfl)
    ((closing_run inert_inRun line).trans h.closed) (.inr h.complete)
  rw [endsInVar_eq] at hkept
  exact Option.some.inj (hscan.symm.trans hkept)

theorem Dangles.not_inGrammar (h : Dangles env line) : ¬ InGrammar env run line := by
  rintro ⟨hclosed, hcomplete, -⟩
  rcases h.2.2 with hopen | hhang
  · exact hopen hclosed
  · rw [hcomplete] at hhang
    cases hhang

/-- `parse` returns on exactly the lines of the grammar, and appends their arguments, if and only if
the line does not end behind a variable in an open section or before a hanging backslash, it makes no
difference to it whether the escaped characters behind a name are put before the value, and it has no
empty argument but a last one that ends in a variable. -/
theorem agrees_iff (env : List (List Char)) (line : List Char) (paramList : List (List Char)) :
    Agrees env line paramList ↔
      ¬ Dangles env line ∧ LateSame env line ∧
        (InGrammar env Item.inName line → NoneEmpty env line) := by
  have hreturned := returned_iff env line paramList
  constructor
  · rintro ⟨hiff, hargs⟩
    rw [hreturned] at hiff
    have hdangles : ¬ Dangles env line := fun h => h.not_inGrammar (hiff.1 (.inl h))
    have hgrammar : InGrammar env Item.inRun line ↔ InGrammar env Item.inName line := by
      rw [← hiff, or_iff_right hdangles]
    have hkept : InGrammar env Item.inName line →
        kept (endsInVar line) (args env Item.inRun line) = args env Item.inName line := by
      intro hline
      obtain ⟨more, l, hret⟩ := hreturned.2 (hiff.2 hline)
      have heq := returned_eq (hgrammar.2 hline) hret
      rw [hargs more l hret] at heq
      exact (List.append_cancel_left heq).symm
    have hall : InGrammar env Item.inName line →
        kept (endsInVar line) (args env Item.inRun line) = args env Item.inRun line := by
      intro hline
      apply (kept_sublist _ _).eq_of_length
      rw [hkept hline, length_args inert_inName, length_args inert_inRun]
    have hsame : InGrammar env Item.inName line →
        args env Item.inRun line = args env Item.inName line :=
      fun hline => (hall hline).symm.trans (hkept hline)
    refine ⟨hdangles, ⟨hgrammar, hsame⟩, ?_⟩
    intro hline
    have := hall hline
    rw [hsame hline] at this
    exact kept_eq_self_iff.1 this
  · rintro ⟨hdangles, ⟨hgrammar, hsame⟩, hnone⟩
    refine ⟨?_, ?_⟩
    · rw [hreturned, or_iff_right hdangles, hgrammar]
    · intro more l hret
      have hrun := (hreturned.1 ⟨more, l, hret⟩).resolve_left hdangles
      have hline := hgrammar.1 hrun
      rw [returned_eq hrun hret, hsame hline, kept_eq_self_iff.2 (hnone hline)]

/-- An open section behind which a variable ends the line, a word that is an empty section, and an
escaped character behind the name of a variable. -/
theorem not_agrees :
    ¬ Agrees [['A', '=', 'y']] ['"', '$', 'A'] [] ∧ ¬ Agrees [] ['"', '"'] [] ∧
      ¬ Agrees [['A', '=', 'y']] ['$', 'A', '\\', 'x'] [] := by
  refine ⟨?_, ?_, ?_⟩
  · rintro ⟨hiff, -⟩
    have hret : parse [['A', '=', 'y']] ['"', '$', 'A'] [] = some (.returned true [['y']]) := by decide
    exact absurd (hiff.1 ⟨_, _, hret⟩).closed (by decide)
  · rintro ⟨-, hargs⟩
    exact absurd (hargs true [] (by decide)) (by decide)
  · rintro ⟨-, hargs⟩
    exact absurd (hargs true [['x', 'y']] (by decide)) (by decide)

end Sem3.Blatt06
