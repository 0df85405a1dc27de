import AsmCheck.Source.Token

/-! # Tokens and the texts they come from

    A scan for tokens is an automaton over strings and parentheses, and
    `Unbroken` says that it passes over a stretch of text without finding a
    separator.  A token is such a stretch, read from the scan's first state; a
    token that another one follows also ends in that state, because nowhere
    else is there a separator.  The last token may end anywhere, within a
    string or within parentheses.

    `TokenList` says so of a list of tokens.  The tokens of every text form
    such a list (`tokenList_tokens`), and such a list is found again in any
    text that puts gaps between its tokens (`tokens_of_joined`).  The text it
    was found in is one of these, apart from what stands in front of the first
    token and after the last (`exists_joined_tokensFrom`). -/

namespace AsmCheck.Source

open AsmCheck.Text

/-! ## Characters -/

/-- A character that means nothing to the scan, wherever it stands. -/
def isPlain (c : Char) : Bool :=
  !isBlank c && c != ',' && c != '"' && c != '(' && c != ')' && c != '\\'

/-- The codes of the characters that mean something to the scan. -/
theorem isPlain_iff {c : Char} :
    isPlain c = true ↔ isBlank c = false ∧ c.toNat ≠ 44 ∧ c.toNat ≠ 34 ∧ c.toNat ≠ 40 ∧
      c.toNat ≠ 41 ∧ c.toNat ≠ 92 := by
  have hcode : ∀ d : Char, c ≠ d ↔ c.toNat ≠ d.toNat := fun d => not_congr Char.toNat_inj.symm
  simp only [isPlain, Bool.and_eq_true, Bool.not_eq_true', bne_iff_ne, hcode, and_assoc]
  exact Iff.rfl

/-- A visible ASCII character that is none of the few special ones is plain. -/
theorem isPlain_of_ascii {c : Char} (hlow : 32 < c.toNat) (hhigh : c.toNat < 127)
    (hspecial : c.toNat ≠ 44 ∧ c.toNat ≠ 34 ∧ c.toNat ≠ 40 ∧ c.toNat ≠ 41 ∧ c.toNat ≠ 92) :
    isPlain c = true := by
  refine isPlain_iff.mpr ⟨?_, hspecial⟩
  simp only [isBlank, Bool.or_eq_false_iff, Bool.and_eq_false_iff, decide_eq_false_iff_not,
    beq_eq_false_iff_ne]
  omega

namespace TokenState

variable {st : TokenState} {c : Char}

/-- Separators are found in the first state only. -/
theorem eq_start_of_separates (h : st.separates c = true) : st = {} := by
  obtain ⟨quote, depth⟩ := st
  simp only [separates, Bool.and_eq_true, beq_iff_eq] at h
  obtain ⟨⟨rfl, rfl⟩, -⟩ := h
  rfl

theorem separates_plain (h : isPlain c = true) : st.separates c = false := by
  obtain ⟨hblank, hcomma, -⟩ := isPlain_iff.mp h
  have hc : c ≠ ',' := fun heq => hcomma (by rw [heq]; rfl)
  rw [separates, hblank, beq_eq_false_iff_ne.mpr hc]
  exact Bool.and_false _

/-- Plain characters are all alike to quotes. -/
theorem quote_step_plain (h : isPlain c = true) (q : Quote) : q.step c = q.step 'a' := by
  obtain ⟨-, -, hquote, -, -, hback⟩ := isPlain_iff.mp h
  rw [Quote.step.eq_def]
  split
  · exact absurd rfl hquote
  · rfl
  · exact absurd rfl hquote
  · exact absurd rfl hback
  · rfl
  · rfl

/-- All plain characters do the same to the scan. -/
theorem step_plain (h : isPlain c = true) :
    st.step c = { st with quote := st.quote.step 'a' } := by
  obtain ⟨-, -, -, hopen, hclose, -⟩ := isPlain_iff.mp h
  have hopen' : c ≠ '(' := fun heq => hopen (by rw [heq]; rfl)
  have hclose' : c ≠ ')' := fun heq => hclose (by rw [heq]; rfl)
  rw [step, if_neg hopen', if_neg hclose', ite_self, quote_step_plain h]

/-- A plain character does not leave the first state. -/
theorem start_step (h : isPlain c = true) : ({} : TokenState).step c = {} :=
  step_plain h

end TokenState

/-! ## Unbroken stretches -/

/-- The scan goes from one state to another over a text without finding a separator. -/
inductive Unbroken : TokenState → List Char → TokenState → Prop where
  | nil (st : TokenState) : Unbroken st [] st
  | cons {st st' : TokenState} {c : Char} {cs : List Char} (joins : st.separates c = false)
      (rest : Unbroken (st.step c) cs st') : Unbroken st (c :: cs) st'

namespace Unbroken

variable {st st' : TokenState} {c : Char} {cs ds : List Char}

/-- A stretch is unbroken if its first character does not break it and the others do not either. -/
theorem cons_iff :
    Unbroken st (c :: cs) st' ↔ st.separates c = false ∧ Unbroken (st.step c) cs st' := by
  constructor
  · intro h
    cases h with
    | cons joins rest => exact ⟨joins, rest⟩
  · rintro ⟨joins, rest⟩
    exact .cons joins rest

/-- Two unbroken stretches make up one. -/
theorem append_iff :
    Unbroken st (cs ++ ds) st' ↔ ∃ mid, Unbroken st cs mid ∧ Unbroken mid ds st' := by
  induction cs generalizing st with
  | nil =>
      constructor
      · intro h
        exact ⟨st, .nil st, h⟩
      · rintro ⟨mid, hmid, h⟩
        cases hmid
        exact h
  | cons c cs ih =>
      rw [List.cons_append, cons_iff, ih]
      constructor
      · rintro ⟨joins, mid, hmid, h⟩
        exact ⟨mid, .cons joins hmid, h⟩
      · rintro ⟨mid, hmid, h⟩
        obtain ⟨joins, hrest⟩ := cons_iff.mp hmid
        exact ⟨joins, mid, hrest, h⟩

/-- From the first state, a plain character in front makes no difference. -/
theorem cons_plain_iff (hc : isPlain c = true) :
    Unbroken {} (c :: cs) st' ↔ Unbroken {} cs st' := by
  rw [cons_iff, TokenState.start_step hc]
  exact and_iff_right (TokenState.separates_plain hc)

/-- A stretch of plain characters does not leave the first state. -/
theorem plain_iff (h : cs.all isPlain = true) : Unbroken {} cs st' ↔ st' = {} := by
  induction cs with
  | nil =>
      constructor
      · intro hnil
        cases hnil
        rfl
      · rintro rfl
        exact .nil {}
  | cons c cs ih =>
      rw [List.all_cons, Bool.and_eq_true] at h
      rw [cons_plain_iff h.1, ih h.2]

/-- The scan takes an unbroken stretch into the token at hand. -/
theorem tokensFrom_append (h : Unbroken st cs st') (current rest : List Char) :
    tokensFrom st current (cs ++ rest) = tokensFrom st' (cs.reverse ++ current) rest := by
  induction h generalizing current with
  | nil st => rfl
  | @cons st st' c cs joins _ ih =>
      rw [List.cons_append, tokensFrom, joins, if_neg Bool.false_ne_true, ih]
      simp

end Unbroken

/-! ## Lists of tokens -/

/-- The tokens that a text can have: each is unbroken, and all but the last end where the scan
    starts. -/
inductive TokenList : List (List Char) → Prop where
  | nil : TokenList []
  | last {w : List Char} {st : TokenState} (nonempty : w ≠ []) (whole : Unbroken {} w st) :
      TokenList [w]
  | cons {w : List Char} {ws : List (List Char)} (nonempty : w ≠ []) (whole : Unbroken {} w {})
      (rest : TokenList ws) : TokenList (w :: ws)

/-- What is cut into tokens is a list of tokens. -/
theorem tokenList_tokensFrom (cs : List Char) :
    ∀ {st : TokenState} {current : List Char}, Unbroken {} current.reverse st →
      TokenList (tokensFrom st current cs) := by
  induction cs with
  | nil =>
      intro st current h
      cases current with
      | nil => exact .nil
      | cons c current =>
          show TokenList [(c :: current).reverse]
          exact .last (by simp) h
  | cons c cs ih =>
      intro st current h
      rw [tokensFrom]
      cases hsep : st.separates c with
      | true =>
          -- the token at hand, if there is one, ends here
          obtain rfl := TokenState.eq_start_of_separates hsep
          rw [if_pos rfl]
          cases current with
          | nil => exact ih (.nil {})
          | cons d current =>
              show TokenList ((d :: current).reverse :: tokensFrom {} [] cs)
              exact .cons (by simp) h (ih (.nil {}))
      | false =>
          rw [if_neg Bool.false_ne_true]
          refine ih ?_
          rw [List.reverse_cons, Unbroken.append_iff]
          exact ⟨st, h, .cons hsep (.nil _)⟩

/-- The tokens of a text. -/
theorem tokenList_tokens (cs : List Char) : TokenList (tokens cs) :=
  tokenList_tokensFrom cs (.nil {})

/-- Separators that stand between tokens are passed over. -/
theorem tokens_gap {gap : List Char} (h : ∀ c ∈ gap, ({} : TokenState).separates c = true)
    (rest : List Char) : tokens (gap ++ rest) = tokens rest := by
  induction gap with
  | nil => rfl
  | cons c gap ih =>
      have hc : ({} : TokenState).separates c = true := h c (List.mem_cons_self ..)
      rw [← ih fun d hd => h d (List.mem_cons_of_mem c hd)]
      show tokensFrom {} [] (c :: (gap ++ rest)) = tokensFrom {} [] (gap ++ rest)
      rw [tokensFrom, if_pos hc]
      rfl

/-- A token and the gap after it come off the front of a text. -/
theorem tokens_append {w gap : List Char} (hw : w ≠ []) (h : Unbroken {} w {})
    (hgap : gap ≠ []) (hsep : ∀ c ∈ gap, ({} : TokenState).separates c = true)
    (rest : List Char) : tokens (w ++ (gap ++ rest)) = w :: tokens rest := by
  obtain ⟨c, gap, rfl⟩ := List.exists_cons_of_ne_nil hgap
  have hc : ({} : TokenState).separates c = true := hsep c (List.mem_cons_self ..)
  have hw' : w.reverse.isEmpty = false := by simpa using hw
  rw [← tokens_gap (fun d hd => hsep d (List.mem_cons_of_mem c hd)) rest]
  show tokensFrom {} [] (w ++ (c :: (gap ++ rest))) = w :: tokensFrom {} [] (gap ++ rest)
  rw [h.tokensFrom_append, List.append_nil, tokensFrom, if_pos hc, hw',
    if_neg Bool.false_ne_true, List.reverse_reverse]

/-- A stretch that is not broken anywhere is one token. -/
theorem tokens_single {w : List Char} {st : TokenState} (hw : w ≠ []) (h : Unbroken {} w st) :
    tokens w = [w] := by
  have hw' : w.reverse.isEmpty = false := by simpa using hw
  have hscan := h.tokensFrom_append [] []
  rw [List.append_nil, List.append_nil] at hscan
  rw [tokens, hscan, tokensFrom, hw', if_neg Bool.false_ne_true, List.reverse_reverse]

/-! ## Gaps -/

/-- A run of blanks and commas. -/
def IsGap (gap : List Char) : Prop :=
  ∀ c ∈ gap, isBlank c = true ∨ c = ','

/-- At the start of a text only blanks and commas separate. -/
theorem TokenState.separates_start {c : Char} :
    ({} : TokenState).separates c = true ↔ isBlank c = true ∨ c = ',' := by
  show (isBlank c || c == ',') = true ↔ _
  rw [Bool.or_eq_true, beq_iff_eq]

/-- Gaps are what stands between tokens where the scan starts. -/
theorem isGap_iff {gap : List Char} :
    IsGap gap ↔ ∀ c ∈ gap, ({} : TokenState).separates c = true :=
  forall₂_congr fun _ _ => TokenState.separates_start.symm

theorem isGap_nil : IsGap [] := by
  intro c hc
  exact absurd hc List.not_mem_nil

theorem IsGap.cons {c : Char} {gap : List Char} (hc : isBlank c = true ∨ c = ',')
    (hgap : IsGap gap) : IsGap (c :: gap) := by
  intro d hd
  rcases List.mem_cons.mp hd with rfl | hd
  · exact hc
  · exact hgap d hd

/-- Two gaps make up one. -/
theorem IsGap.append {gap gap' : List Char} (h : IsGap gap) (h' : IsGap gap') :
    IsGap (gap ++ gap') := by
  intro c hc
  rcases List.mem_append.mp hc with hc | hc
  · exact h c hc
  · exact h' c hc

/-- Words one after the other, with a gap of any length but zero between every two. -/
inductive Joined : List (List Char) → List Char → Prop where
  | nil : Joined [] []
  | single (w : List Char) : Joined [w] w
  | cons {w w' gap rest : List Char} {ws : List (List Char)} (some : gap ≠ [])
      (blank : IsGap gap) (more : Joined (w' :: ws) rest) :
      Joined (w :: w' :: ws) (w ++ (gap ++ rest))

/-- Tokens with gaps between them are joined. -/
theorem joined_intercalate {gap : List Char} (hgap : gap ≠ []) (hblank : IsGap gap) :
    ∀ ws : List (List Char), Joined ws (gap.intercalate ws)
  | [] => .nil
  | [w] => by
    rw [List.intercalate_singleton]
    exact .single w
  | w :: w' :: ws => by
    rw [List.intercalate_cons_cons, List.append_assoc]
    exact .cons hgap hblank (joined_intercalate hgap hblank (w' :: ws))

/-- However tokens are joined, they are found again. -/
theorem TokenList.tokens_of_joined {ws : List (List Char)} {text : List Char} (h : TokenList ws)
    (hjoined : Joined ws text) : tokens text = ws := by
  induction hjoined with
  | nil => rfl
  | single w =>
      cases h with
      | last nonempty whole => exact tokens_single nonempty whole
      | cons nonempty whole _ => exact tokens_single nonempty whole
  | cons some blank _ ih =>
      cases h with
      | cons nonempty whole rest =>
          rw [tokens_append nonempty whole some (isGap_iff.mp blank), ih rest]

/-- The tokens of a list that is joined by one gap throughout. -/
theorem TokenList.tokens_intercalate {ws : List (List Char)} (h : TokenList ws)
    {gap : List Char} (hgap : gap ≠ [])
    (hsep : ∀ c ∈ gap, ({} : TokenState).separates c = true) :
    tokens (gap.intercalate ws) = ws :=
  h.tokens_of_joined (joined_intercalate hgap (isGap_iff.mpr hsep) ws)

/-- What has been read of a token and what is left to read are the tokens found, joined by gaps, and
    perhaps a gap at either end. -/
theorem exists_joined_tokensFrom (cs : List Char) : ∀ (st : TokenState) (current : List Char),
    ∃ front body back, current.reverse ++ cs = front ++ (body ++ back) ∧ IsGap front ∧
      IsGap back ∧ Joined (tokensFrom st current cs) body := by
  induction cs with
  | nil =>
      intro st current
      cases current with
      | nil => exact ⟨[], [], [], rfl, isGap_nil, isGap_nil, .nil⟩
      | cons d current =>
          exact ⟨[], (d :: current).reverse, [], rfl, isGap_nil, isGap_nil, .single _⟩
  | cons c cs ih =>
      intro st current
      rw [tokensFrom]
      cases hsep : st.separates c with
      | false =>
          rw [if_neg Bool.false_ne_true]
          obtain ⟨front, body, back, htext, hfront, hback, hjoined⟩ := ih (st.step c) (c :: current)
          refine ⟨front, body, back, ?_, hfront, hback, hjoined⟩
          rw [← htext, List.reverse_cons, List.append_assoc]
          rfl
      | true =>
          obtain rfl := TokenState.eq_start_of_separates hsep
          have hc := TokenState.separates_start.mp hsep
          obtain ⟨front, body, back, htext, hfront, hback, hjoined⟩ := ih {} []
          have htext : cs = front ++ (body ++ back) := htext
          rw [if_pos rfl]
          cases current with
          | nil =>
              refine ⟨c :: front, body, back, ?_, hfront.cons hc, hback, hjoined⟩
              rw [htext]
              rfl
          | cons d current =>
              show ∃ front body back, _ ∧ _ ∧ _ ∧
                Joined ((d :: current).reverse :: tokensFrom {} [] cs) body
              cases htokens : tokensFrom {} [] cs with
              | nil =>
                  -- the token is the last, and all that follows it is one gap
                  rw [htokens] at hjoined
                  cases hjoined
                  refine ⟨[], _, c :: (front ++ back), ?_, isGap_nil,
                    (hfront.append hback).cons hc, .single _⟩
                  rw [htext]
                  rfl
              | cons w ws =>
                  rw [htokens] at hjoined
                  refine ⟨[], _, back, ?_, isGap_nil, hback,
                    .cons (List.cons_ne_nil c front) (hfront.cons hc) hjoined⟩
                  rw [htext]
                  simp

/-- The state behind a stretch depends on its characters only. -/
theorem Unbroken.eq_foldl {st st' : TokenState} {cs : List Char} (h : Unbroken st cs st') :
    st' = cs.foldl TokenState.step st := by
  induction h with
  | nil st => rfl
  | cons _ _ ih => exact ih

/-- After the text a string or a parenthesis is open. -/
def LeavesOpen (cs : List Char) : Prop :=
  (cs.foldl TokenState.step {}).quote ≠ .outside ∨ 0 < (cs.foldl TokenState.step {}).depth

/-- A token's own blanks and commas stand within strings or parentheses. -/
theorem Unbroken.leavesOpen {w front back : List Char} {st : TokenState} {c : Char}
    (h : Unbroken {} w st) (hw : w = front ++ c :: back) (hc : isBlank c = true ∨ c = ',') :
    LeavesOpen front := by
  rw [hw] at h
  obtain ⟨mid, hfront, hrest⟩ := append_iff.mp h
  have hjoins := (cons_iff.mp hrest).1
  have hopen : mid ≠ {} := by
    rintro rfl
    rw [TokenState.separates_start.mpr hc] at hjoins
    cases hjoins
  rw [LeavesOpen, ← hfront.eq_foldl]
  obtain ⟨quote, depth⟩ := mid
  by_cases hquote : quote = .outside
  · subst hquote
    refine Or.inr (Nat.pos_of_ne_zero ?_)
    rintro rfl
    exact hopen rfl
  · exact Or.inl hquote

/-- No token is empty or broken. -/
theorem TokenList.exists_unbroken {ws : List (List Char)} (h : TokenList ws) :
    ∀ w ∈ ws, ∃ st, w ≠ [] ∧ Unbroken {} w st := by
  induction h with
  | nil =>
      intro w hw
      exact absurd hw List.not_mem_nil
  | last nonempty whole =>
      intro w hw
      rw [List.mem_singleton.mp hw]
      exact ⟨_, nonempty, whole⟩
  | cons nonempty whole _ ih =>
      intro w hw
      rcases List.mem_cons.mp hw with rfl | hw
      · exact ⟨_, nonempty, whole⟩
      · exact ih w hw

/-- Splitting a text into tokens loses nothing but gaps, and the gaps do not matter: the text is its
    tokens, which are not empty, joined by gaps, with perhaps a gap at either end; blanks and commas
    within a token stand within strings or parentheses; and however the tokens are joined instead,
    they are the tokens of the new text. -/
theorem tokens_lossless_stable (text : List Char) :
    (∃ front body back, text = front ++ (body ++ back) ∧ IsGap front ∧ IsGap back ∧
        Joined (tokens text) body) ∧
      (∀ w ∈ tokens text, w ≠ [] ∧ ∀ front c back, w = front ++ c :: back →
        isBlank c = true ∨ c = ',' → LeavesOpen front) ∧
      ∀ text', Joined (tokens text) text' → tokens text' = tokens text := by
  have hlist := tokenList_tokens text
  refine ⟨exists_joined_tokensFrom text {} [], ?_, fun text' => hlist.tokens_of_joined⟩
  intro w hw
  obtain ⟨st, hne, hwhole⟩ := hlist.exists_unbroken w hw
  exact ⟨hne, fun front c back => hwhole.leavesOpen⟩

/-- A parenthesis that closes nothing, a string with an escaped quote in front of parentheses, and a
    parenthesis that stays open. -/
def unbalanced : List Char :=
  " ,.ascii) \"a \\\",b\"(x, y),z( ,w".toList

theorem tokens_unbalanced :
    tokens unbalanced = [".ascii)".toList, "\"a \\\",b\"(x, y)".toList, "z( ,w".toList] := by
  decide +kernel

/-- With other gaps it has the same tokens. -/
theorem unbalanced_stable :
    Joined (tokens unbalanced) (".ascii)".toList ++ ("\t,".toList ++
        ("\"a \\\",b\"(x, y)".toList ++ ("  ".toList ++ "z( ,w".toList)))) ∧
      tokens (".ascii)".toList ++ ("\t,".toList ++
        ("\"a \\\",b\"(x, y)".toList ++ ("  ".toList ++ "z( ,w".toList)))) =
          tokens unbalanced := by
  have hcomma : "\t,".toList.all ({} : TokenState).separates = true := by decide
  have hblanks : "  ".toList.all ({} : TokenState).separates = true := by decide
  have hjoined : Joined (tokens unbalanced) _ :=
    tokens_unbalanced ▸ Joined.cons (by decide) (isGap_iff.mpr (List.all_eq_true.mp hcomma))
      (.cons (by decide) (isGap_iff.mpr (List.all_eq_true.mp hblanks)) (.single _))
  exact ⟨hjoined, (tokens_lossless_stable unbalanced).2.2 _ hjoined⟩

/-! ## Replacing tokens -/

/-- A text that can stand wherever another one stands as a token. -/
structure StandsFor (w' w : List Char) : Prop where
  nonempty : w' ≠ []
  whole : ∀ {st}, Unbroken {} w st → Unbroken {} w' st

theorem StandsFor.refl {w : List Char} (h : w ≠ []) : StandsFor w w :=
  ⟨h, id⟩

/-- Plain text stands for plain text. -/
theorem StandsFor.plain {w' w : List Char} (hne : w' ≠ []) (hw' : w'.all isPlain = true)
    (hw : w.all isPlain = true) : StandsFor w' w := by
  refine ⟨hne, fun h => ?_⟩
  rw [Unbroken.plain_iff hw] at h
  exact (Unbroken.plain_iff hw').mpr h

theorem TokenList.ne_nil {ws : List (List Char)} (h : TokenList ws) : ∀ w ∈ ws, w ≠ [] := by
  intro w hw
  obtain ⟨_, hne, _⟩ := h.exists_unbroken w hw
  exact hne

/-- Replacing every token by one that stands for it gives a list of tokens. -/
theorem TokenList.map {ws : List (List Char)} (h : TokenList ws) {f : List Char → List Char}
    (hf : ∀ w ∈ ws, StandsFor (f w) w) : TokenList (ws.map f) := by
  induction h with
  | nil => exact .nil
  | @last w st nonempty whole =>
      have hw := hf w (List.mem_cons_self ..)
      exact .last hw.nonempty (hw.whole whole)
  | @cons w ws nonempty whole rest ih =>
      have hw := hf w (List.mem_cons_self ..)
      exact .cons hw.nonempty (hw.whole whole) (ih fun v hv => hf v (List.mem_cons_of_mem w hv))

/-- Tokens may be replaced by others that stand for them. -/
theorem TokenList.map_tail {w w' : List Char} {ws : List (List Char)} (h : TokenList (w :: ws))
    (hw : StandsFor w' w) {f : List Char → List Char} (hf : ∀ v ∈ ws, StandsFor (f v) v) :
    TokenList (w' :: ws.map f) := by
  cases h with
  | last _ whole => exact .last hw.nonempty (hw.whole whole)
  | cons _ whole rest => exact .cons hw.nonempty (hw.whole whole) (rest.map hf)

/-! ## Small letters -/

/-- Only capital letters have another form. -/
theorem toLower_cases (c : Char) :
    c.toLower = c ∨ 65 ≤ c.toNat ∧ c.toNat ≤ 90 ∧ c.toLower.toNat = c.toNat + 32 := by
  by_cases hupper : c.val ≥ 'A'.val ∧ c.val ≤ 'Z'.val
  · have hlow : 65 ≤ c.toNat := UInt32.le_iff_toNat_le.mp hupper.1
    have hhigh : c.toNat ≤ 90 := UInt32.le_iff_toNat_le.mp hupper.2
    have hcode : (c.val + ('a'.val - 'A'.val)).toNat = c.toNat + 32 := by
      rw [UInt32.toNat_add, Nat.mod_eq_of_lt]
      · rfl
      · show c.toNat + 32 < 2 ^ 32
        omega
    exact Or.inr ⟨hlow, hhigh, (congrArg Char.toNat (dif_pos hupper)).trans hcode⟩
  · exact Or.inl (dif_neg hupper)

/-- Lower case makes no difference to where a stretch is broken. -/
theorem Unbroken.lower {st st' : TokenState} {cs : List Char} (h : Unbroken st cs st') :
    Unbroken st (lower cs) st' := by
  induction h with
  | nil st => exact .nil st
  | @cons st st' c cs joins _ ih =>
      show Unbroken st (c.toLower :: Text.lower cs) st'
      rcases toLower_cases c with hc | ⟨hlow, hhigh, hcode⟩
      · rw [hc]
        exact .cons joins ih
      · have hplain : isPlain c = true := isPlain_of_ascii (by omega) (by omega) (by omega)
        have hplain' : isPlain c.toLower = true :=
          isPlain_of_ascii (by omega) (by omega) (by omega)
        refine .cons (TokenState.separates_plain hplain') ?_
        rw [TokenState.step_plain hplain', ← TokenState.step_plain hplain]
        exact ih

/-- Small letters stand for capital ones. -/
theorem StandsFor.lower {w : List Char} (h : w ≠ []) : StandsFor (lower w) w :=
  ⟨by simpa [Text.lower] using h, fun hw => hw.lower⟩

theorem lower_lower (cs : List Char) : lower (lower cs) = lower cs := by
  rw [lower, lower, List.map_map]
  refine List.map_congr_left fun c _ => ?_
  show c.toLower.toLower = c.toLower
  rcases toLower_cases c with hc | ⟨hlow, -, hcode⟩
  · rw [hc, hc]
  · -- what replaces a capital letter is none
    rcases toLower_cases c.toLower with hagain | ⟨-, hhigh, -⟩
    · exact hagain
    · omega

end AsmCheck.Source
