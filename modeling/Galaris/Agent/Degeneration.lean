import Galaris.Agent.ReasoningGuard

/-! The guard raises where the stream has repeated itself (`ReasoningPatternGuard`, `agent/reasoning_guard.py`).

The matches of a text do not depend on where it is cut, except in a word (`matchAll_mark`), so the state of
the guard is a function of what has been heard: the word at the end of the text, and a window of the tokens
before it (`Reads`). -/
namespace Galaris.Agent

open Repetition

variable {δ : Type} (u : Unicode δ)

/-! ### Matches -/

namespace Unicode

variable {u} {text word : List Char} {c : Char}

theorem matchAll_mark (hc : u.isWord c = false) (text rest : List Char) :
    u.matchAll (text ++ c :: rest) = u.matchAll text ++ [c] :: u.matchAll rest := by
  induction text with
  | nil => simp [matchAll, hc]
  | cons d text ih =>
    rw [List.cons_append, matchAll, matchAll, ih]
    cases hd : u.isWord d with
    | false => rfl
    | true =>
      rw [if_pos rfl, if_pos rfl]
      match u.matchAll text with
      | [] => simp [hc]
      | [] :: more => rfl
      | (e :: found) :: more =>
        dsimp only [List.cons_append]
        split <;> rfl

theorem matchAll_word (hne : word ≠ []) (hword : ∀ c ∈ word, u.isWord c = true) : u.matchAll word = [word] := by
  induction word with
  | nil => exact absurd rfl hne
  | cons c word ih =>
    have hc := hword c List.mem_cons_self
    rw [matchAll, if_pos hc]
    cases word with
    | nil => rfl
    | cons d word =>
      have hd := hword d (List.mem_cons_of_mem _ List.mem_cons_self)
      rw [ih (List.cons_ne_nil d word) fun e he => hword e (List.mem_cons_of_mem _ he)]
      dsimp only
      rw [if_pos hd]

/-- The shape of a match: some word characters, or one other. -/
def Match (u : Unicode δ) (token : List Char) : Prop :=
  (token ≠ [] ∧ ∀ c ∈ token, u.isWord c = true) ∨ ∃ c, token = [c] ∧ u.isWord c = false

theorem matchAll_spec (text : List Char) :
    (u.matchAll text).flatten = text ∧ ∀ token ∈ u.matchAll text, Match u token := by
  induction text with
  | nil => exact ⟨rfl, fun _ h => nomatch h⟩
  | cons c text ih =>
    obtain ⟨hflatten, hall⟩ := ih
    have hcons : ((u.matchAll text).flatten = text ∧ Match u [c]) → ([c] :: u.matchAll text).flatten = c :: text ∧
        ∀ token ∈ [c] :: u.matchAll text, Match u token := by
      rintro ⟨hflatten, hmatch⟩
      refine ⟨by rw [List.flatten_cons, hflatten, List.singleton_append], fun token htoken => ?_⟩
      obtain rfl | htoken := List.mem_cons.mp htoken
      · exact hmatch
      · exact hall token htoken
    rw [matchAll]
    cases hc : u.isWord c with
    | false => exact hcons ⟨hflatten, .inr ⟨c, rfl, hc⟩⟩
    | true =>
      have hone : Match u [c] := .inl ⟨List.cons_ne_nil _ _, fun d hd => List.mem_singleton.mp hd ▸ hc⟩
      rw [if_pos rfl]
      split
      case h_2 => exact hcons ⟨hflatten, hone⟩
      case h_1 d word more heq =>
        split
        case isFalse => exact heq ▸ hcons ⟨hflatten, hone⟩
        case isTrue hd =>
          rw [heq] at hflatten hall
          refine ⟨by rw [← hflatten]; rfl, fun token htoken => ?_⟩
          obtain rfl | htoken := List.mem_cons.mp htoken
          · have hword : ∀ e ∈ d :: word, u.isWord e = true := by
              obtain ⟨-, hword⟩ | ⟨e, he, hfalse⟩ := hall _ List.mem_cons_self
              · exact hword
              · obtain ⟨rfl, rfl⟩ := List.cons.inj he
                exact nomatch hfalse.symm.trans hd
            refine .inl ⟨List.cons_ne_nil _ _, fun e he => ?_⟩
            obtain rfl | he := List.mem_cons.mp he
            · exact hc
            · exact hword e he
          · exact hall token (List.mem_cons_of_mem _ htoken)

/-- A word counts when it is not empty. -/
def wordToken (word : List Char) : List (List Char) := if word = [] then [] else [word]

/-- A character that is in no word counts when it is not white space. -/
def markToken (u : Unicode δ) (c : Char) : List (List Char) := if u.isspace c then [] else [[c]]

theorem findAll_mark (hc : u.isWord c = false) (text rest : List Char) :
    u.findAll (text ++ c :: rest) = u.findAll text ++ markToken u c ++ u.findAll rest := by
  have hmark : ([[c]].filter fun token => token.head?.any u.isWord || !token.all u.isspace) = markToken u c := by
    cases hspace : u.isspace c <;> simp [markToken, hc, hspace]
  rw [findAll, findAll, findAll, matchAll_mark hc, ← List.singleton_append, List.filter_append,
    List.filter_append, hmark, List.append_assoc]

theorem findAll_word (hword : ∀ c ∈ word, u.isWord c = true) : u.findAll word = wordToken word := by
  rw [wordToken]
  split
  case isTrue hnil => rw [hnil]; rfl
  case isFalse hne =>
    rw [findAll, matchAll_word hne hword]
    obtain ⟨c, rest, rfl⟩ := List.exists_cons_of_ne_nil hne
    have hc := hword c List.mem_cons_self
    simp [hc]

/-- The tokens of a text are those before the word at its end, and that word. -/
theorem findAll_split (u : Unicode δ) (text : List Char) :
    u.findAll text = u.findAll (text.rdropWhile u.isWord) ++ wordToken (text.rtakeWhile u.isWord) := by
  have hword : ∀ c ∈ text.rtakeWhile u.isWord, u.isWord c = true := fun c hc => List.mem_rtakeWhile_imp hc
  conv_lhs => rw [← List.rdropWhile_append_rtakeWhile (p := u.isWord) (l := text)]
  rw [← findAll_word hword]
  obtain hnil | ⟨front, c, hfront⟩ := (text.rdropWhile u.isWord).eq_nil_or_concat'
  · rw [hnil]
    rfl
  · have hc : u.isWord c = false := by
      have hne : text.rdropWhile u.isWord ≠ [] := by
        rw [hfront]; exact List.append_ne_nil_of_right_ne_nil _ (List.cons_ne_nil c [])
      have hlast := List.rdropWhile_last_not u.isWord text hne
      simp only [hfront, List.getLast_append_singleton] at hlast
      exact Bool.eq_false_iff.mpr hlast
    rw [hfront, List.append_assoc, List.singleton_append, findAll_mark hc, findAll_mark hc]
    simp [findAll, matchAll]

end Unicode

/-! ### Repetition in the window -/

/-- The words that are not too long. -/
def ordinary (token : List Char) : Bool := token.length ≤ maxWordChars

/-- The tokens since the last word that was too long, as far as the guard keeps them. -/
def window (tokens : List (List Char)) : List (List Char) :=
    (tokens.rtakeWhile ordinary).rtake ((maxRepetitions + 1) * maxPatternTokens)

theorem repeatedSuffix_iff {tokens : List (List Char)} : u.repeatedSuffix tokens = true ↔
    ∃ block : List (List Char), 0 < block.length ∧ block.length ≤ maxPatternTokens ∧ u.containsLetters block = true ∧
      copies (maxRepetitions + 1) block <:+ tokens := by
  have hsize : ∀ size, size ∈ List.range' 1 (min maxPatternTokens (tokens.length / (maxRepetitions + 1))) ↔
      0 < size ∧ size ≤ maxPatternTokens ∧ (maxRepetitions + 1) * size ≤ tokens.length := by
    intro size
    have hdiv := Nat.le_div_iff_mul_le (k := maxRepetitions + 1) (x := size) (y := tokens.length) (Nat.succ_pos _)
    rw [List.mem_range'_1, Nat.mul_comm, ← hdiv]
    omega
  have hshift : ∀ {size}, (maxRepetitions + 1) * size ≤ tokens.length →
      ((List.range' (tokens.length - size * (maxRepetitions + 1))
        (tokens.length - size - (tokens.length - size * (maxRepetitions + 1)))).all
        (fun index => tokens[index]? = tokens[index + size]?) = true ↔
        copies (maxRepetitions + 1) (tokens.rtake size) <:+ tokens) := by
    intro size hle
    rw [suffix_copies_iff hle, List.all_eq_true, Nat.mul_comm size]
    refine forall_congr' fun i => ?_
    rw [List.mem_range'_1, decide_eq_true_eq, and_imp]
    refine imp_congr_right fun hge => ?_
    have hlt : i < tokens.length - (maxRepetitions + 1) * size +
        (tokens.length - size - (tokens.length - (maxRepetitions + 1) * size)) ↔
        i < tokens.length - size := by
      have hone : size ≤ (maxRepetitions + 1) * size := Nat.le_mul_of_pos_left size (Nat.succ_pos _)
      omega
    rw [hlt]
  rw [Unicode.repeatedSuffix]
  simp only [List.any_eq_true, Bool.and_eq_true, hsize]
  constructor
  · rintro ⟨size, ⟨hpos, hmax, hle⟩, hletters, hall⟩
    have hone : size ≤ tokens.length := Nat.le_trans (Nat.le_mul_of_pos_left size (Nat.succ_pos _)) hle
    have hlength : (tokens.rtake size).length = size := by rw [length_rtake, Nat.min_eq_left hone]
    exact ⟨tokens.rtake size, hlength.symm ▸ hpos, hlength.symm ▸ hmax, hletters, (hshift hle).mp hall⟩
  · rintro ⟨block, hpos, hmax, hletters, hsuffix⟩
    have hle : (maxRepetitions + 1) * block.length ≤ tokens.length :=
        length_copies (maxRepetitions + 1) block ▸ hsuffix.length_le
    have hblock : block = tokens.rtake block.length := by
      refine List.suffix_iff_eq_drop.mp (List.IsSuffix.trans ?_ hsuffix)
      exact ⟨copies maxRepetitions block, (copies_succ' maxRepetitions block).symm⟩
    rw [hblock] at hletters hsuffix
    exact ⟨block.length, ⟨hpos, hmax, hle⟩, hletters, (hshift hle).mpr hsuffix⟩

/-- What ends a list and is made of ordinary tokens ends those since the last one that is not. -/
theorem suffix_rtakeWhile_iff {α : Type} {p : α → Bool} {s l : List α} :
    s <:+ l.rtakeWhile p ↔ s <:+ l ∧ ∀ a ∈ s, p a = true := by
  refine ⟨fun h => ⟨h.trans (List.rtakeWhile_suffix p l), fun a ha => List.mem_rtakeWhile_imp (h.subset ha)⟩, ?_⟩
  rintro ⟨⟨front, rfl⟩, hall⟩
  induction s using List.reverseRecOn with
  | nil => exact List.nil_suffix
  | append_singleton s a ih =>
    have ha := hall a (List.mem_append_right s List.mem_cons_self)
    rw [← List.append_assoc, List.rtakeWhile_concat_pos _ _ _ ha]
    obtain ⟨front', hfront⟩ := ih fun b hb => hall b (List.mem_append_left _ hb)
    exact ⟨front', by rw [← List.append_assoc, hfront]⟩

/-- The window shows every repetition at the end of the tokens. -/
theorem repeatedSuffix_window {tokens : List (List Char)} : u.repeatedSuffix (window tokens) = true ↔
    ∃ block : List (List Char), 0 < block.length ∧ block.length ≤ maxPatternTokens ∧ u.containsLetters block = true ∧
      (∀ token ∈ block, token.length ≤ maxWordChars) ∧ copies (maxRepetitions + 1) block <:+ tokens := by
  rw [repeatedSuffix_iff]
  refine exists_congr fun block => and_congr_right fun _ => and_congr_right fun hmax => and_congr_right fun _ => ?_
  have hlength : (copies (maxRepetitions + 1) block).length ≤ (maxRepetitions + 1) * maxPatternTokens := by
    rw [length_copies]
    exact Nat.mul_le_mul_left _ hmax
  rw [window, suffix_rtake_iff hlength, suffix_rtakeWhile_iff, and_comm]
  refine and_congr_left fun _ => ⟨fun hall token htoken => ?_,
    fun hall token htoken => decide_eq_true (hall token (mem_copies htoken))⟩
  exact of_decide_eq_true (hall token (by rw [copies_succ]; exact List.mem_append_left _ htoken))

/-- A repetition in the tokens was there before, or ends with the last one. -/
theorem degenerate_concat {tokens : List (List Char)} {token : List Char} :
    Degenerate u (tokens ++ [token]) ↔ u.repeatedSuffix (window (tokens ++ [token])) = true ∨ Degenerate u tokens := by
  rw [repeatedSuffix_window]
  simp only [Degenerate, List.infix_concat_iff, ← exists_or, and_or_left]

theorem Degenerate.mono {tokens tokens' : List (List Char)} (h : Degenerate u tokens)
    (hle : tokens <+: tokens') : Degenerate u tokens' := by
  obtain ⟨block, hpos, hmax, hletters, hwords, hinfix⟩ := h
  exact ⟨block, hpos, hmax, hletters, hwords, hinfix.trans hle.isInfix⟩

theorem degenerate_nil : ¬ Degenerate u [] := by
  rintro ⟨block, hpos, -, -, -, hinfix⟩
  have hle := hinfix.length_le
  rw [length_copies, List.length_nil] at hle
  exact absurd hle (Nat.not_le.mpr (Nat.mul_pos (Nat.succ_pos maxRepetitions) hpos))

theorem window_nil : window [] = [] := by rw [window, List.rtakeWhile_nil, List.rtake_nil]

/-- A word that is too long ends no repetition. -/
theorem window_long {tokens : List (List Char)} {word : List Char}
    (h : maxWordChars < word.length) : window (tokens ++ [word]) = [] := by
  have hlong : ¬ ordinary word = true := fun hle => absurd (of_decide_eq_true hle) (Nat.not_le.mpr h)
  rw [window, List.rtakeWhile_concat_neg _ _ _ hlong, List.rtake_nil]

theorem window_concat {tokens : List (List Char)} {token : List Char} (h : token.length ≤ maxWordChars) :
    window (tokens ++ [token]) = (window tokens ++ [token]).rtake ((maxRepetitions + 1) * maxPatternTokens) := by
  have hordinary : ordinary token = true := decide_eq_true h
  rw [window, window, rtake_concat, List.rtakeWhile_concat_pos _ _ _ hordinary]

/-! ### The guard as a function of what it has heard -/

/-- The guard has a word that may go on, after some tokens. -/
structure Reads (guard : ReasoningGuard δ) (tokens : List (List Char)) (word : List Char) : Prop where
  ordinary : word.length ≤ maxWordChars → guard.pendingWord = word ∧ guard.oversizedWord = false ∧
    guard.tokens = window tokens
  long : maxWordChars < word.length → guard.pendingWord = [] ∧ guard.oversizedWord = true ∧ guard.tokens = []

theorem Reads.nil {guard : ReasoningGuard δ} {tokens : List (List Char)}
    (hpending : guard.pendingWord = []) (hoversized : guard.oversizedWord = false)
    (htokens : guard.tokens = window tokens) : Reads guard tokens [] :=
  ⟨fun _ => ⟨hpending, hoversized, htokens⟩, fun hlong => absurd hlong (Nat.not_lt_zero _)⟩

/-- What is raised is raised for a repetition, and what is not has none. -/
def Judges (result : Except String (ReasoningGuard δ)) (tokens : List (List Char))
    (P : ReasoningGuard δ → Prop) : Prop :=
  match result with
  | .error _ => Degenerate u tokens
  | .ok guard => ¬ Degenerate u tokens ∧ P guard

namespace Judges

variable {u} {result : Except String (ReasoningGuard δ)} {tokens tokens' : List (List Char)}
    {P Q : ReasoningGuard δ → Prop}

theorem bind {f : ReasoningGuard δ → Except String (ReasoningGuard δ)}
    (h : Judges u result tokens P) (hle : tokens <+: tokens')
    (hf : ∀ guard, ¬ Degenerate u tokens → P guard → Judges u (f guard) tokens' Q) :
    Judges u (result >>= f) tokens' Q := by
  cases result with
  | error e => exact h.mono u hle
  | ok guard => exact hf guard h.1 h.2

theorem imp (h : Judges u result tokens P) (himp : ∀ guard, P guard → Q guard) : Judges u result tokens Q := by
  cases result with
  | error e => exact h
  | ok guard => exact ⟨h.1, himp guard h.2⟩

theorem raises_iff (h : Judges u result tokens P) : (∃ e, result = .error e) ↔ Degenerate u tokens := by
  cases result with
  | error e => exact ⟨fun _ => h, fun _ => ⟨e, rfl⟩⟩
  | ok guard => exact ⟨fun ⟨_, he⟩ => (nomatch he), fun hbad => absurd hbad h.1⟩

end Judges

variable {u} {guard : ReasoningGuard δ} {tokens : List (List Char)} {word : List Char}

/-- The rest of the guard, which reading leaves as it is. -/
def SameStream (guard guard' : ReasoningGuard δ) : Prop :=
    guard'.snapshotLengths = guard.snapshotLengths ∧ guard'.streamId = guard.streamId

theorem observeToken_spec (htokens : guard.tokens = window tokens) (hnot : ¬ Degenerate u tokens)
    {token : List Char} (htoken : token.length ≤ maxWordChars) :
    Judges u (guard.observeToken u token) (tokens ++ [token]) fun guard' => guard'.tokens = window (tokens ++ [token]) ∧
      guard'.pendingWord = guard.pendingWord ∧ guard'.oversizedWord = guard.oversizedWord ∧
          SameStream guard guard' := by
  have hwindow : (guard.tokens ++ [token]).drop ((guard.tokens ++
      [token]).length - (maxRepetitions + 1) * maxPatternTokens) = window (tokens ++ [token]) := by
    rw [window_concat htoken, htokens, List.rtake]
  rw [ReasoningGuard.observeToken, hwindow]
  cases hrepeated : u.repeatedSuffix (window (tokens ++ [token])) with
  | true => exact (degenerate_concat u).mpr (.inl hrepeated)
  | false =>
    refine ⟨fun hbad => ?_, by dsimp only, rfl, rfl, rfl, rfl⟩
    obtain hsuffix | hbefore := (degenerate_concat u).mp hbad
    · exact nomatch hrepeated.symm.trans hsuffix
    · exact hnot hbefore

/-- The word at the end is over. -/
theorem finishWord_spec (h : Reads guard tokens word) (hnot : ¬ Degenerate u tokens) :
    Judges u (guard.finishWord u) (tokens ++ Unicode.wordToken word) fun guard' =>
      Reads guard' (tokens ++ Unicode.wordToken word) [] ∧ SameStream guard guard' := by
  by_cases hlength : word.length ≤ maxWordChars
  · obtain ⟨hpending, hoversized, htokens⟩ := h.ordinary hlength
    rw [ReasoningGuard.finishWord, hpending]
    by_cases hnil : word = []
    · have hnone : Unicode.wordToken word = [] := if_pos hnil
      rw [hnone, List.append_nil, if_pos hnil]
      exact ⟨hnot, .nil rfl rfl htokens, rfl, rfl⟩
    · have hone : Unicode.wordToken word = [word] := if_neg hnil
      rw [hone, if_neg hnil]
      have hstart :
          ({guard with pendingWord := [], oversizedWord := false} : ReasoningGuard δ).tokens =
          window tokens := htokens
      exact (observeToken_spec hstart hnot hlength).imp fun guard'
        ⟨htokens, hpending, hoversized, hsame⟩ => ⟨.nil hpending hoversized htokens, hsame⟩
  · obtain ⟨hpending, hoversized, htokens⟩ := h.long (Nat.not_le.mp hlength)
    have hne : word ≠ [] := fun hnil => hlength (by rw [hnil]; exact Nat.zero_le _)
    have hwindow : window (tokens ++ [word]) = [] := window_long (Nat.not_le.mp hlength)
    have hone : Unicode.wordToken word = [word] := if_neg hne
    rw [ReasoningGuard.finishWord, hpending, if_pos rfl, hone]
    refine ⟨fun hbad => ?_, .nil rfl rfl (htokens.trans hwindow.symm), rfl, rfl⟩
    obtain hsuffix | hbefore := (degenerate_concat u).mp hbad
    · rw [hwindow] at hsuffix
      exact nomatch hsuffix
    · exact hnot hbefore

/-- The word at the end goes on. -/
theorem observeWord_spec (h : Reads guard tokens word) (more : List Char) :
    Reads (guard.observeWord more) tokens (word ++ more) ∧ SameStream guard (guard.observeWord more) := by
  by_cases hlength : word.length ≤ maxWordChars
  · obtain ⟨hpending, hoversized, htokens⟩ := h.ordinary hlength
    rw [ReasoningGuard.observeWord, hoversized, hpending, if_neg Bool.false_ne_true]
    by_cases hlong : maxWordChars < (word ++ more).length
    · rw [if_pos hlong]
      exact ⟨⟨fun hle => absurd hle (Nat.not_le.mpr hlong), fun _ => ⟨rfl, rfl, rfl⟩⟩, rfl, rfl⟩
    · rw [if_neg hlong]
      exact ⟨⟨fun _ => ⟨rfl, rfl, htokens⟩, fun hlt => absurd hlt hlong⟩, rfl, rfl⟩
  · have hwhole := h.long (Nat.not_le.mp hlength)
    have hlong : maxWordChars < (word ++ more).length := by
      rw [List.length_append]
      exact Nat.lt_add_right _ (Nat.not_le.mp hlength)
    rw [ReasoningGuard.observeWord, if_pos hwhole.2.1]
    exact ⟨⟨fun hle => absurd hle (Nat.not_le.mpr hlong), fun _ => hwhole⟩, rfl, rfl⟩

/-- The guard has heard a stream. -/
structure Hears (u : Unicode δ) (guard : ReasoningGuard δ) (heard : Heard) : Prop where
  reads : Reads guard (heard.settled u) (heard.text.rtakeWhile u.isWord)
  snapshotLengths : guard.snapshotLengths = heard.snapshotLengths

/-- The tokens of the word that ends a text, and of the text with it. -/
theorem settled_word (heard : Heard) : heard.settled u ++ Unicode.wordToken
    (heard.text.rtakeWhile u.isWord) = heard.tokens ++ u.findAll heard.text := by
  rw [Heard.settled, List.append_assoc, ← Unicode.findAll_split]

/-- A text that goes on with a character of no word. -/
theorem settled_mark {heard : Heard} {c : Char} (hc : u.isWord c = false) : (heard.read [c]).settled u =
    heard.settled u ++ Unicode.wordToken (heard.text.rtakeWhile u.isWord) ++ Unicode.markToken u c := by
  have hneg : ¬ u.isWord c = true := Bool.eq_false_iff.mp hc
  have hnil : u.findAll [] = [] := rfl
  rw [settled_word, Heard.settled, Heard.read]
  dsimp only
  rw [List.rdropWhile_concat_neg _ _ _ hneg, Unicode.findAll_mark hc, hnil, List.append_nil, List.append_assoc]

theorem rtakeWhile_append {α : Type} {p : α → Bool} {l more : List α} (h : ∀ a ∈ more, p a = true) :
    (l ++ more).rtakeWhile p = l.rtakeWhile p ++ more := by
  induction more using List.reverseRecOn with
  | nil => rw [List.append_nil, List.append_nil]
  | append_singleton more a ih =>
    rw [← List.append_assoc, List.rtakeWhile_concat_pos _ _ _ (h a (List.mem_append_right _ List.mem_cons_self)),
      ih fun b hb => h b (List.mem_append_left _ hb), List.append_assoc]

theorem rdropWhile_append {α : Type} {p : α → Bool} {l more : List α} (h : ∀ a ∈ more, p a = true) :
    (l ++ more).rdropWhile p = l.rdropWhile p := by
  induction more using List.reverseRecOn with
  | nil => rw [List.append_nil]
  | append_singleton more a ih =>
    rw [← List.append_assoc, List.rdropWhile_concat_pos _ _ _ (h a (List.mem_append_right _ List.mem_cons_self)),
      ih fun b hb => h b (List.mem_append_left _ hb)]

/-- A word that goes on completes no token. -/
theorem settled_more {heard : Heard} {more : List Char} (hmore : ∀ c ∈ more, u.isWord c = true) :
    (heard.read more).settled u = heard.settled u := by
  rw [Heard.settled, Heard.read]
  dsimp only
  rw [rdropWhile_append hmore, Heard.settled]

theorem read_append (heard : Heard) (text more : List Char) :
    (heard.read text).read more = heard.read (text ++ more) := by
  rw [Heard.read, Heard.read, Heard.read, List.append_assoc]

theorem read_nil (heard : Heard) : heard.read [] = heard := by rw [Heard.read, List.append_nil]

/-- Tokens that are complete stay so. -/
theorem settled_read (heard : Heard) (text : List Char) : heard.settled u <+: (heard.read text).settled u := by
  induction text generalizing heard with
  | nil =>
    rw [read_nil]
  | cons c text ih =>
    have hone : heard.settled u <+: (heard.read [c]).settled u := by
      cases hc : u.isWord c with
      | true =>
        have hsame : (heard.read [c]).settled u = heard.settled u :=
            settled_more fun d hd => List.mem_singleton.mp hd ▸ hc
        exact hsame ▸ List.prefix_rfl
      | false =>
        rw [settled_mark hc, List.append_assoc]
        exact List.prefix_append _ _
    have hrest := ih (heard.read [c])
    rw [read_append, List.singleton_append] at hrest
    exact hone.trans hrest

theorem observeMatch_spec {heard : Heard} (h : Hears u guard heard)
    (hnot : ¬ Degenerate u (heard.settled u)) {token : List Char} (htoken : Unicode.Match u token) :
    Judges u (guard.observeMatch u token) ((heard.read token).settled u) fun guard' =>
        Hears u guard' (heard.read token) ∧ SameStream guard guard' := by
  obtain ⟨hne, hword⟩ | ⟨c, rfl, hc⟩ := htoken
  · obtain ⟨c, rest, rfl⟩ := List.exists_cons_of_ne_nil hne
    have hsettled : (heard.read (c :: rest)).settled u = heard.settled u := settled_more hword
    have hhead : (c :: rest).head?.any u.isWord = true := hword c List.mem_cons_self
    obtain ⟨hreads, hsame⟩ := observeWord_spec h.reads (c :: rest)
    rw [ReasoningGuard.observeMatch, if_pos hhead, hsettled]
    refine ⟨hnot, ⟨?_, hsame.1.trans h.snapshotLengths⟩, hsame⟩
    rw [hsettled, Heard.read]
    dsimp only
    rw [rtakeWhile_append hword]
    exact hreads
  · have hhead : ¬ [c].head?.any u.isWord = true := Bool.eq_false_iff.mp hc
    have hneg : ¬ u.isWord c = true := Bool.eq_false_iff.mp hc
    have htake : (heard.read [c]).text.rtakeWhile u.isWord = [] := List.rtakeWhile_concat_neg _ _ _ hneg
    rw [ReasoningGuard.observeMatch, if_neg hhead, settled_mark hc]
    refine (finishWord_spec h.reads hnot).bind (List.prefix_append _ _) ?_
    rintro guard' hnot' ⟨hreads, hsame⟩
    have hall : [c].all u.isspace = u.isspace c := by rw [List.all_cons, List.all_nil, Bool.and_true]
    obtain ⟨hpending, hoversized, htokens⟩ := hreads.ordinary (Nat.zero_le _)
    rw [hall, Unicode.markToken]
    split
    case isTrue hspace =>
      rw [List.append_nil]
      refine ⟨hnot', ⟨?_, hsame.1.trans h.snapshotLengths⟩, hsame⟩
      rw [settled_mark hc, Unicode.markToken, if_pos hspace, List.append_nil, htake]
      exact hreads
    case isFalse hspace =>
      have hone : [c].length ≤ maxWordChars := by rw [List.length_singleton]; decide
      refine (observeToken_spec htokens hnot' hone).imp fun guard'' ⟨htokens', hpending', hoversized', hsame'⟩ => ?_
      refine ⟨⟨?_, hsame'.1.trans (hsame.1.trans h.snapshotLengths)⟩, hsame'.1.trans hsame.1, hsame'.2.trans hsame.2⟩
      rw [settled_mark hc, Unicode.markToken, if_neg hspace, htake]
      exact .nil (hpending'.trans hpending) (hoversized'.trans hoversized) htokens'

/-- A fragment, match by match. -/
theorem observeMatches_spec {found : List (List Char)}
    (hfound : ∀ token ∈ found, Unicode.Match u token) {heard : Heard} (h : Hears u guard heard)
    (hnot : ¬ Degenerate u (heard.settled u)) :
    Judges u (found.foldlM (ReasoningGuard.observeMatch u) guard) ((heard.read found.flatten).settled u) fun guard' =>
      Hears u guard' (heard.read found.flatten) ∧ SameStream guard guard' := by
  induction found generalizing guard heard with
  | nil =>
    rw [List.flatten_nil, read_nil]
    exact ⟨hnot, h, rfl, rfl⟩
  | cons token found ih =>
    have hle := settled_read (u := u) (heard.read token) found.flatten
    rw [read_append] at hle
    rw [List.flatten_cons, List.foldlM_cons]
    refine (observeMatch_spec h hnot (hfound token List.mem_cons_self)).bind hle ?_
    rintro guard' hnot' ⟨hears, hsame⟩
    have hrest := ih (fun other hother => hfound other (List.mem_cons_of_mem _ hother)) hears hnot'
    rw [read_append] at hrest
    exact hrest.imp fun guard'' ⟨hears', hsame'⟩ => ⟨hears', hsame'.1.trans hsame.1, hsame'.2.trans hsame.2⟩

/-- The stream is complete. -/
theorem close_spec {heard : Heard} (h : Hears u guard heard) (hnot : ¬ Degenerate u (heard.settled u)) :
    Judges u (guard.finishWord u) ((heard.close u).settled u) fun guard' =>
        Hears u guard' (heard.close u) ∧ SameStream guard guard' := by
  have hsettled : (heard.close u).settled u = heard.settled u ++ Unicode.wordToken
      (heard.text.rtakeWhile u.isWord) := by
    rw [settled_word, Heard.settled, Heard.close]
    exact List.append_nil _
  rw [hsettled]
  refine (finishWord_spec h.reads hnot).imp fun guard' ⟨hreads, hsame⟩ => ⟨⟨?_, hsame.1.trans h.snapshotLengths⟩, hsame⟩
  rw [hsettled]
  exact hreads

theorem settled_close (heard : Heard) : heard.settled u <+: (heard.close u).settled u := by
  have hsettled : (heard.close u).settled u = heard.settled u ++ Unicode.wordToken
      (heard.text.rtakeWhile u.isWord) := by
    rw [settled_word, Heard.settled, Heard.close]
    exact List.append_nil _
  exact hsettled ▸ List.prefix_append _ _

/-! ### Messages of one stream -/

/-- Text, or thinking: what the guard reads. -/
def Message.prose (message : Message) : Prop :=
    message.type = .text ∨ message.type = .tool ∧ message.toolName = some "thinking"

/-- The guard is in a stream, or has not begun to read it. -/
structure Follows (u : Unicode δ) (streamId : String) (guard : ReasoningGuard δ) (heard : Heard) : Prop where
  hears : Hears u guard heard
  stream : guard.streamId = some streamId ∨ guard.streamId = none ∧ heard.text = []

theorem hear_eq (heard : Heard) (message : Message) : heard.hear u message =
    let heard' := {heard with snapshotLengths := (fresh heard.snapshotLengths message).1}.read
      ((fresh heard.snapshotLengths message).2.flatMap u.casefold)
    if message.streamComplete = some true then heard'.close u else heard' := rfl

theorem settled_hear (heard : Heard) (message : Message) : heard.settled u <+: (heard.hear u message).settled u := by
  rw [hear_eq]
  have hread := settled_read (u := u) {heard with snapshotLengths := (fresh heard.snapshotLengths message).1}
    ((fresh heard.snapshotLengths message).2.flatMap u.casefold)
  dsimp only
  split
  case isTrue => exact hread.trans (settled_close _)
  case isFalse => exact hread

variable {streamId : String} {heard : Heard}

/-- A message that adds nothing may complete the stream. -/
theorem observe_empty (h : Follows u streamId guard heard) (hnot : ¬ Degenerate u (heard.settled u))
    (complete : Option Bool) :
    Judges u (if complete = some true ∧ some streamId = guard.streamId then guard.finishWord u else .ok guard)
      ((if complete = some true then heard.close u else heard).settled u)
      fun guard' => Follows u streamId guard' (if complete = some true then heard.close u else heard) := by
  by_cases hcomplete : complete = some true
  · rw [if_pos hcomplete]
    obtain hstream | ⟨hstream, htext⟩ := h.stream
    · rw [if_pos ⟨hcomplete, hstream.symm⟩]
      exact (close_spec h.hears hnot).imp fun guard' ⟨hears, hsame⟩ => ⟨hears, .inl (hsame.2.trans hstream)⟩
    · have hother : ¬ (complete = some true ∧ some streamId = guard.streamId) :=
          fun hcase => nomatch hcase.2.trans hstream
      have hclose : heard.close u = heard := by
        have hnone : u.findAll heard.text = [] := by rw [htext]; rfl
        rw [Heard.close, hnone, List.append_nil, ← htext]
      rw [if_neg hother, hclose]
      exact ⟨hnot, h⟩
  · rw [if_neg hcomplete, if_neg fun hcase => hcomplete hcase.1]
    exact ⟨hnot, h⟩

theorem follow_spec (h : Follows u streamId guard heard) (hnot : ¬ Degenerate u (heard.settled u)) {message : Message}
    (hstream : message.streamId = some streamId) :
    Judges u (guard.follow u message) (heard.settled u) fun guard' =>
        Hears u guard' heard ∧ guard'.streamId = some streamId := by
  rw [ReasoningGuard.follow, hstream]
  obtain hin | ⟨hout, htext⟩ := h.stream
  · rw [if_pos hin.symm]
    exact ⟨hnot, h.hears, hin⟩
  · have hne : ¬ some streamId = guard.streamId := fun heq => nomatch heq.trans hout
    rw [if_neg hne]
    have hword : heard.text.rtakeWhile u.isWord = [] := by rw [htext, List.rtakeWhile_nil]
    have hreads := h.hears.reads
    rw [hword] at hreads
    have hfinish := finishWord_spec hreads hnot
    have hnone : Unicode.wordToken [] = [] := rfl
    rw [hnone, List.append_nil] at hfinish
    refine hfinish.bind List.prefix_rfl fun guard' hnot' ⟨hreads', hsame⟩ =>
      ⟨hnot', ⟨?_, hsame.1.trans h.hears.snapshotLengths⟩, rfl⟩
    rw [hword]
    exact ⟨hreads'.ordinary, hreads'.long⟩

/-- What a message adds to the stream. -/
theorem observe_content [DecidableEq δ] (h : Follows u streamId guard heard)
    (hnot : ¬ Degenerate u (heard.settled u)) {message : Message}
    (hstream : message.streamId = some streamId) (content : List Char) :
    Judges u
      (if content = [] then if message.streamComplete = some true ∧
        message.streamId = guard.streamId then guard.finishWord u else .ok guard
      else do
        let guard ← guard.follow u message
        let guard ← guard.observeBlock u message (content.flatMap u.casefold)
        let guard ← (u.matchAll (content.flatMap u.casefold)).foldlM (ReasoningGuard.observeMatch u) guard
        if message.streamId = none ∨ message.streamComplete = some true then guard.finishWord u else .ok guard)
      ((if message.streamComplete = some true then (heard.read (content.flatMap u.casefold)).close u
        else heard.read (content.flatMap u.casefold)).settled u)
      fun guard' => Follows u streamId guard'
        (if message.streamComplete = some true then (heard.read (content.flatMap u.casefold)).close
          u else heard.read (content.flatMap u.casefold)) := by
  by_cases hempty : content = []
  · rw [if_pos hempty, hempty, List.flatMap_nil, read_nil, hstream]
    exact observe_empty h hnot message.streamComplete
  · rw [if_neg hempty]
    have hread := settled_read (u := u) heard (content.flatMap u.casefold)
    have hwhole : (heard.read (content.flatMap u.casefold)).settled u <+:
        (if message.streamComplete = some true then (heard.read (content.flatMap u.casefold)).close
          u else heard.read (content.flatMap u.casefold)).settled u := by
      split
      case isTrue => exact settled_close _
      case isFalse => exact List.prefix_rfl
    refine (follow_spec h hnot hstream).bind (hread.trans hwhole) fun guard' hnot' ⟨hears, hin⟩ => ?_
    have hblock : guard'.observeBlock u message (content.flatMap u.casefold) = .ok guard' := by
      have hother : ¬ (message.streamId = none ∧ u.findAll (content.flatMap u.casefold) ≠ []) :=
          fun hcase => nomatch hstream.symm.trans hcase.1
      exact if_neg hother
    obtain ⟨hflatten, hmatches⟩ := Unicode.matchAll_spec (u := u) (content.flatMap u.casefold)
    have hfound := observeMatches_spec hmatches hears hnot'
    rw [hflatten] at hfound
    rw [hblock]
    refine hfound.bind hwhole fun guard'' hnot'' ⟨hears', hsame⟩ => ?_
    have hdone : message.streamId = none ∨ message.streamComplete = some true ↔ message.streamComplete = some true :=
      or_iff_right fun hnone => nomatch hstream.symm.trans hnone
    rw [if_congr hdone rfl rfl]
    split
    case isTrue =>
      exact (close_spec hears' hnot'').imp fun guard' ⟨hears, hsame'⟩ =>
        ⟨hears, .inl (hsame'.2.trans (hsame.2.trans hin))⟩
    case isFalse => exact ⟨hnot'', hears', .inl (hsame.2.trans hin)⟩

/-- A message of the stream. -/
theorem observe_spec [DecidableEq δ] (h : Follows u streamId guard heard)
    (hnot : ¬ Degenerate u (heard.settled u)) {message : Message}
    (hprose : message.prose) (hstream : message.streamId = some streamId) :
    Judges u (guard.observe u message) ((heard.hear u message).settled u) fun guard' =>
        Follows u streamId guard' (heard.hear u message) := by
  have htool : ¬ (message.type = .tool ∧ ¬ (message.type = .tool ∧ message.toolName = some "thinking")) := by
    rintro ⟨htool, hnone⟩
    obtain htext | hthinking := hprose
    · exact nomatch htext.symm.trans htool
    · exact hnone hthinking
  have hother : ¬ (message.type ≠ .text ∧ message.type ≠ .tool) := by
    rintro ⟨htext, htool⟩
    exact hprose.elim htext fun hthinking => htool hthinking.1
  rw [hear_eq, ReasoningGuard.observe]
  dsimp only
  rw [if_neg htool, if_neg hother, h.hears.snapshotLengths]
  obtain ⟨lengths, content⟩ := fresh heard.snapshotLengths message
  have hfollows : Follows u streamId {guard with snapshotLengths := lengths} {heard with snapshotLengths := lengths} :=
    ⟨⟨⟨h.hears.reads.ordinary, h.hears.reads.long⟩, rfl⟩, h.stream⟩
  exact observe_content hfollows hnot hstream content

/-- A run of messages. -/
theorem observeAll_spec [DecidableEq δ] {messages : List Message}
    (hone : ∀ message ∈ messages, message.prose ∧ message.streamId = some streamId)
    (h : Follows u streamId guard heard) (hnot : ¬ Degenerate u (heard.settled u)) :
    Judges u (messages.foldlM (ReasoningGuard.observe u) guard)
        ((messages.foldl (Heard.hear u) heard).settled u) fun _ => True := by
  have hle : ∀ (messages : List Message) (heard : Heard),
      heard.settled u <+: (messages.foldl (Heard.hear u) heard).settled u := by
    intro messages
    induction messages with
    | nil => exact fun heard => List.prefix_rfl
    | cons message rest ih => exact fun heard => (settled_hear heard message).trans (ih _)
  induction messages generalizing guard heard with
  | nil => exact ⟨hnot, trivial⟩
  | cons message rest ih =>
    obtain ⟨hprose, hstream⟩ := hone message List.mem_cons_self
    rw [List.foldlM_cons, List.foldl_cons]
    exact (observe_spec h hnot hprose hstream).bind (hle rest _) fun guard' hnot' hfollows =>
      ih (fun other hother => hone other (List.mem_cons_of_mem _ hother)) hfollows hnot'

/-- Fragments add up to their text. -/
theorem heard_deltas {messages : List Message} (h : ∀ message ∈ messages,
    message.streamMode = .delta ∧ message.streamComplete ≠ some true) (heard : Heard) :
    messages.foldl (Heard.hear u) heard = heard.read ((messages.flatMap Message.content).flatMap u.casefold) := by
  induction messages generalizing heard with
  | nil => exact (read_nil heard).symm
  | cons message rest ih =>
    obtain ⟨hmode, hopen⟩ := h message List.mem_cons_self
    have hfresh : fresh heard.snapshotLengths message = (heard.snapshotLengths, message.content) := by
      rw [fresh, hmode]
    rw [List.foldl_cons, ih fun other hother => h other (List.mem_cons_of_mem _ hother), hear_eq, hfresh]
    dsimp only
    rw [if_neg hopen, read_append, List.flatMap_cons, List.flatMap_append]

/-- For any messages of one stream after a reset, the guard raises exactly where the tokens that are complete
hold more than thirty copies of a block in a row. Where the messages are fragments of a stream that is not
complete, these are the tokens of the whole text without the word at its end, however it is cut. -/
theorem guard_exact [DecidableEq δ] (u : Unicode δ) (guard : ReasoningGuard δ) {streamId : String}
    {messages : List Message}
    (hone : ∀ message ∈ messages, message.prose ∧ message.streamId = some streamId) :
    ((∃ e, messages.foldlM (ReasoningGuard.observe u) guard.reset = .error e) ↔
      Degenerate u ((messages.foldl (Heard.hear u) ⟨guard.snapshotLengths, [], []⟩).settled u)) ∧
    ((∀ message ∈ messages, message.streamMode = .delta ∧ message.streamComplete ≠ some true) →
      ((∃ e, messages.foldlM (ReasoningGuard.observe u) guard.reset = .error e) ↔
        Degenerate u (u.findAll (((messages.flatMap Message.content).flatMap u.casefold).rdropWhile u.isWord)))) := by
  have hstart : Follows u streamId guard.reset ⟨guard.snapshotLengths, [], []⟩ :=
      ⟨⟨.nil rfl rfl window_nil.symm, rfl⟩, .inr ⟨rfl, rfl⟩⟩
  have hwhole := (observeAll_spec hone hstart (degenerate_nil u)).raises_iff
  refine ⟨hwhole, fun hdeltas => ?_⟩
  rw [hwhole, heard_deltas hdeltas]
  rfl

/-- The letters of ASCII; the digest of a text is the text. -/
def ascii : Unicode (List Char) := ⟨fun c => [c.toLower], Char.isAlphanum, Char.isWhitespace, Char.isAlpha, id⟩

/-- A fragment of a stream. -/
def fragment (text : List Char) : Message := ⟨.text, text, none, some "thought", .delta, none⟩

/-- A word thirty-one times, cut within one of them. -/
def again : List Message := [fragment ['O', 'h', ' ', 'o'], fragment ('H' :: ' ' :: copies 29 ['o', 'h', ' '])]

theorem guard_exact_again : ∃ e, again.foldlM (ReasoningGuard.observe ascii) ReasoningGuard.init.reset = .error e := by
  have hone : ∀ message ∈ again, message.prose ∧ message.streamId = some "thought" := by
    intro message hmessage
    simp only [again, List.mem_cons, List.not_mem_nil, or_false] at hmessage
    obtain rfl | rfl := hmessage <;> exact ⟨.inl rfl, rfl⟩
  refine (guard_exact ascii .init hone).1.mpr ⟨[['o', 'h']], by decide, by decide, by decide, by decide, ?_⟩
  have hall : (again.foldl (Heard.hear ascii) ⟨fun _ => 0, [], []⟩).settled ascii = copies 31
      [['o', 'h']] := by decide +kernel
  exact hall ▸ List.infix_rfl

/-- A text that repeats a word thirty-one times does not make the guard raise: its last word may go on. -/
theorem last_word_pending : ∃ message : Message, message.prose ∧ message.streamId = some "thought" ∧
    Degenerate ascii (ascii.findAll (message.content.flatMap ascii.casefold)) ∧
    ∃ guard, ReasoningGuard.observe ascii ReasoningGuard.init message = .ok guard := by
  refine ⟨fragment (copies 30 ['o', 'h', ' '] ++ ['o', 'h']), .inl rfl, rfl,
    ⟨[['o', 'h']], by decide, by decide, by decide, by decide, ?_⟩, ?_⟩
  · have hall : ascii.findAll ((fragment (copies 30 ['o', 'h', ' '] ++ ['o', 'h'])).content.flatMap
        ascii.casefold) = copies 31 [['o', 'h']] := by decide +kernel
    exact hall ▸ List.infix_rfl
  · have hok : (ReasoningGuard.observe ascii ReasoningGuard.init
        (fragment (copies 30 ['o', 'h', ' '] ++ ['o', 'h']))).isOk = true := by decide +kernel
    cases hresult : ReasoningGuard.observe ascii ReasoningGuard.init
        (fragment (copies 30 ['o', 'h', ' '] ++ ['o', 'h'])) with
    | ok guard => exact ⟨guard, rfl⟩
    | error e => exact nomatch (congrArg Except.isOk hresult).symm.trans hok

end Galaris.Agent
