import AsmCheck.Proofs.Sizes
import Mathlib.Algebra.Group.Nat.Defs

/-! # Sizes of strings

    A string is written as a sequence of elements: characters that stand for
    themselves, escapes of one character, and octal escapes.  An octal escape
    takes along up to three digits, so where it ends depends on what follows;
    apart from that an element means the same everywhere, and a string is a
    sequence of elements in which no octal escape takes a digit that is not its
    own.  The bytes that such a string stores are those of its elements
    (`bytesOf_body`), and a string directive occupies the bytes of its strings
    and their terminators (`size_of_strings`).

    Sizes are numbers of 32 bits, and they are added up without a thought for
    overflow.  Since sums only grow, one addition on the way overflows exactly
    if the size itself has no place in 32 bits (`countBytes32?_eq`,
    `totalSize32?_eq`).  Strings of 2^32 bytes have no size, then
    (`letters_without_size`). -/

namespace AsmCheck

open Source

namespace Statement

/-! ## Elements of strings -/

/-- An element of a string, as it is written. -/
inductive Element where
  /-- A character that stands for itself. -/
  | plain (c : Char) (itself : c ≠ '\\')
  /-- A backslash in front of a character other than an octal digit. -/
  | escape (c : Char) (noDigit : Literal.isOctalDigit c = false)
  /-- A backslash in front of one to three octal digits. -/
  | octal (digits : List Char) (octal : digits.all Literal.isOctalDigit = true)
      (some : 1 ≤ digits.length) (few : digits.length ≤ 3)

namespace Element

/-- How an element is written. -/
def text : Element → List Char
  | plain c _ => [c]
  | escape c _ => ['\\', c]
  | octal digits _ _ _ => '\\' :: digits

/-- How many bytes an element stores. -/
def bytes : Element → Nat
  | plain c _ => c.utf8Size
  | escape _ _ => 1
  | octal _ _ _ _ => 1

/-- Whether an element may stand directly in front of another: an octal escape with fewer than three
    digits would take along a digit that follows. -/
def MayPrecede : Element → Element → Prop
  | octal digits _ _ _, plain c _ => digits.length < 3 → Literal.isOctalDigit c = false
  | _, _ => True

end Element

/-- A string that is written as a sequence of elements. -/
structure StringLiteral where
  elements : List Element
  separate : elements.IsChain Element.MayPrecede

namespace StringLiteral

/-- What is written between the quotes. -/
def body (l : StringLiteral) : List Char :=
  l.elements.flatMap Element.text

/-- The string with its quotes. -/
def quoted (l : StringLiteral) : List Char :=
  '"' :: (l.body ++ ['"'])

/-- How many bytes the string stores. -/
def bytes (l : StringLiteral) : Nat :=
  l.elements.foldr (fun e n => e.bytes + n) 0

end StringLiteral

/-! ## Bytes of strings -/

theorem dropOctal_append {digits cs : List Char}
    (hdigits : digits.all Literal.isOctalDigit = true) :
    ∀ {n : Nat}, digits.length ≤ n →
      (digits.length < n → ∀ c ∈ cs.head?, Literal.isOctalDigit c = false) →
        dropOctal n (digits ++ cs) = cs := by
  induction digits with
  | nil =>
      intro n _ hnext
      cases n with
      | zero => rw [List.nil_append, dropOctal]
      | succ n =>
          cases cs with
          | nil => rfl
          | cons c cs =>
              rw [List.nil_append, dropOctal, hnext (Nat.succ_pos n) c rfl,
                if_neg Bool.false_ne_true]
  | cons d digits ih =>
      rw [List.all_cons, Bool.and_eq_true] at hdigits
      intro n hlength hnext
      cases n with
      | zero => cases hlength
      | succ n =>
          rw [List.cons_append, dropOctal, if_pos hdigits.1]
          exact ih hdigits.2 (Nat.le_of_succ_le_succ hlength) fun hlt =>
            hnext (Nat.succ_lt_succ hlt)

/-- The element ends where a text begins: the text does not start with a digit that an octal escape
    would take along. -/
def Element.EndsBefore : Element → List Char → Prop
  | .octal digits _ _ _, cs =>
    digits.length < 3 → ∀ c ∈ cs.head?, Literal.isOctalDigit c = false
  | _, _ => True

/-- An element adds its bytes to those of the text behind it. -/
theorem Element.EndsBefore.bytesOf_append {e : Element} {cs : List Char} (h : e.EndsBefore cs) :
    bytesOf (e.text ++ cs) = e.bytes + bytesOf cs := by
  rw [Nat.add_comm]
  cases e with
  | plain c hc =>
      show bytesOf (c :: cs) = _
      rw [bytesOf, if_neg hc]
      rfl
  | escape c hc =>
      show bytesOf ('\\' :: c :: cs) = _
      rw [bytesOf, if_pos rfl, afterEscape, hc, if_neg Bool.false_ne_true]
      rfl
  | octal digits hoctal hsome hfew =>
      cases digits with
      | nil => cases hsome
      | cons d digits =>
          rw [List.all_cons, Bool.and_eq_true] at hoctal
          have hrest : dropOctal 2 (digits ++ cs) = cs :=
            dropOctal_append hoctal.2 (Nat.le_of_succ_le_succ hfew) fun hlt =>
              h (Nat.succ_lt_succ hlt)
          show bytesOf ('\\' :: d :: (digits ++ cs)) = _
          rw [bytesOf, if_pos rfl, afterEscape, if_pos hoctal.1, hrest]
          rfl

/-- Only a plain digit can be mistaken for a part of the escape in front of it. -/
theorem Element.MayPrecede.endsBefore {e e' : Element} (h : e.MayPrecede e') (cs : List Char) :
    e.EndsBefore (e'.text ++ cs) := by
  cases e with
  | plain c hc => exact trivial
  | escape c hc => exact trivial
  | octal digits hoctal hsome hfew =>
      intro hlt c hc
      cases e' with
      | plain d hd =>
          obtain rfl : d = c := Option.some.inj hc
          exact h hlt
      | escape d hd =>
          obtain rfl : '\\' = c := Option.some.inj hc
          rfl
      | octal digits' hoctal' hsome' hfew' =>
          obtain rfl : '\\' = c := Option.some.inj hc
          rfl

theorem Element.endsBefore_nil (e : Element) : e.EndsBefore [] := by
  cases e with
  | plain c hc => exact trivial
  | escape c hc => exact trivial
  | octal digits hoctal hsome hfew =>
      intro _ c hc
      cases hc

namespace StringLiteral

/-- Along the elements: each ends where the next begins. -/
theorem bytesOf_body (l : StringLiteral) : bytesOf l.body = l.bytes := by
  obtain ⟨elements, hseparate⟩ := l
  rw [body, bytes]
  induction elements with
  | nil => rw [List.flatMap_nil, bytesOf, List.foldr_nil]
  | cons e es ih =>
      have hends : e.EndsBefore (es.flatMap Element.text) := by
        cases es with
        | nil => exact e.endsBefore_nil
        | cons e' es => exact (List.isChain_cons_cons.mp hseparate).1.endsBefore _
      rw [List.flatMap_cons, hends.bytesOf_append, List.foldr_cons]
      exact congrArg (e.bytes + ·) (ih hseparate.tail)

/-- The quotes are not stored. -/
theorem stringSize_quoted (l : StringLiteral) : stringSize l.quoted = l.bytes := by
  have hquotes : dropQuotes l.quoted = l.body := by
    show (if (l.body ++ ['"']).getLast? = some '"' then (l.body ++ ['"']).dropLast else _) = _
    rw [if_pos List.getLast?_concat, List.dropLast_concat]
  rw [stringSize, hquotes, bytesOf_body]

/-- How many bytes strings store one after the other. -/
def totalBytes (ls : List StringLiteral) : Nat :=
  ls.foldr (fun l n => l.bytes + n) 0

end StringLiteral

/-! ## Sums in 32 bits -/

/-- The sum of two numbers in 32 bits, none if it overflows. -/
def add32? (m n : Nat) : Option Nat :=
  if m + n < 2 ^ 32 then some (m + n) else none

/-- Counts the bytes of the inside of a string in 32 bits, from left to right. -/
def countBytes32? (count : Nat) : List Char → Option Nat
  | [] => some count
  | c :: cs =>
    if c = '\\' then (add32? count 1).bind fun count => countBytes32? count (afterEscape cs)
    else (add32? count c.utf8Size).bind fun count => countBytes32? count cs
termination_by cs => cs.length
decreasing_by
  · exact Nat.lt_succ_of_le (afterEscape_length_le cs)
  · exact Nat.lt_succ_self _

/-- The size of a string in 32 bits. -/
def stringSize32? (literal : List Char) : Option Nat :=
  countBytes32? 0 (dropQuotes literal)

/-- Adds up the sizes of strings with their terminators in 32 bits, from left to right. -/
def totalSize32? (terminator total : Nat) : List String → Option Nat
  | [] => some total
  | s :: ss =>
    (stringSize32? s.toList).bind fun bytes =>
      (add32? bytes terminator).bind fun size =>
        (add32? total size).bind fun total => totalSize32? terminator total ss

/-- How many bytes strings take with their terminators. -/
def totalSize (terminator : Nat) (strings : List String) : Nat :=
  strings.foldr (fun s n => stringSize s.toList + terminator + n) 0

section Sums

variable {m n m' n' : Nat}

/-- A sum below 2^32 does not overflow. -/
theorem add32?_of_lt (h : m + n < 2 ^ 32) : add32? m n = some (m + n) :=
  if_pos h

/-- Adding nothing never overflows. -/
theorem add32?_zero (h : m < 2 ^ 32) : add32? m 0 = some m :=
  add32?_of_lt h

/-- Only the sum matters, not how it is split. -/
theorem add32?_congr (h : m + n = m' + n') : add32? m n = add32? m' n' := by
  rw [add32?, add32?, h]

/-- Two additions overflow exactly if the sum of all three numbers does. -/
theorem add32?_bind {l : Nat} {f : Nat → Option Nat} (hf : ∀ k < 2 ^ 32, f k = add32? k l) :
    (add32? m n).bind f = add32? m (n + l) := by
  by_cases hlt : m + n < 2 ^ 32
  · rw [add32?_of_lt hlt, Option.bind_some, hf _ hlt]
    exact add32?_congr (Nat.add_assoc ..)
  · rw [add32?, if_neg hlt, add32?, if_neg (by omega)]
    rfl

end Sums

/-- Counting overflows exactly if the bytes themselves do not fit in 32 bits. -/
theorem countBytes32?_eq (cs : List Char) : ∀ {count : Nat}, count < 2 ^ 32 →
    countBytes32? count cs = add32? count (bytesOf cs) := by
  fun_induction bytesOf cs with
  | case1 =>
      intro count hcount
      rw [countBytes32?, add32?_zero hcount]
  | case2 cs ih =>
      intro count _
      rw [countBytes32?, if_pos rfl, add32?_bind fun k hk => ih hk, Nat.add_comm 1]
  | case3 c cs hc ih =>
      intro count _
      rw [countBytes32?, if_neg hc, add32?_bind fun k hk => ih hk, Nat.add_comm c.utf8Size]

/-- A string has a size in 32 bits exactly if its bytes fit. -/
theorem stringSize32?_eq (literal : List Char) :
    stringSize32? literal = add32? 0 (stringSize literal) :=
  countBytes32?_eq _ (by decide)

/-- Adding up strings overflows exactly if all of them together do not fit in 32 bits. -/
theorem totalSize32?_eq (terminator : Nat) (ss : List String) : ∀ {total : Nat}, total < 2 ^ 32 →
    totalSize32? terminator total ss = add32? total (totalSize terminator ss) := by
  induction ss with
  | nil =>
      intro total htotal
      exact (add32?_zero htotal).symm
  | cons s ss ih =>
      intro total _
      have hrest : ∀ size, ((add32? total size).bind fun total => totalSize32? terminator total ss) =
          add32? size (total + totalSize terminator ss) := fun size =>
        (add32?_bind fun k hk => ih hk).trans (add32?_congr (by omega))
      have hstring : ∀ bytes, ((add32? bytes terminator).bind fun size =>
          (add32? total size).bind fun total => totalSize32? terminator total ss) =
          add32? bytes (terminator + (total + totalSize terminator ss)) := fun bytes =>
        add32?_bind fun size _ => hrest size
      rw [totalSize32?, stringSize32?_eq, add32?_bind fun bytes _ => hstring bytes]
      refine add32?_congr ?_
      show _ = total + (stringSize s.toList + terminator + totalSize terminator ss)
      omega

end Statement

/-! ## String directives -/

theorem Opcode.shape_of_string {mnemonic : String} {op : Opcode}
    (h : ofMnemonic? mnemonic = some op) (hkind : op.kind = .string) : op.shape = .strings := by
  refine of_ofMnemonic (P := fun op => op.kind = .string → op.shape = .strings) h ?_ ?_ ?_ hkind
  · decide
  · intro test hstring
    cases hstring
  · intro op w hop hstring
    exact hop hstring

namespace Statement

/-- However many strings there are, each of them is kept. -/
theorem Reading.strings_ofTokens (args : List (List Char)) :
    (ofTokens .strings args).strings = args.map String.ofList := by
  rw [ofTokens]
  split
  · rfl
  · next hcount =>
    -- only an empty list of strings is refused
    have hempty : args.length = 0 := by simpa [Shape.accepts] using hcount
    rw [List.length_eq_zero_iff.mp hempty]
    rfl

/-- How many bytes a string directive adds to each string. -/
def terminatorOf (s : Statement) : Nat :=
  if s.mnemonic = ".ascii" then 0 else 1

/-- The size of a string directive, added up in 32 bits. -/
def size32? (s : Statement) : Option Nat :=
  totalSize32? s.terminatorOf 0 s.strings

/-- Each string counts with its terminator, if the directive adds one. -/
theorem totalSize_quoted (terminator : Nat) (ls : List StringLiteral) :
    totalSize terminator ((ls.map StringLiteral.quoted).map String.ofList) =
      StringLiteral.totalBytes ls + terminator * ls.length := by
  induction ls with
  | nil => rfl
  | cons l ls ih =>
      rw [List.map_cons, List.map_cons, totalSize, List.foldr_cons, ← totalSize, ih,
        String.toList_ofList, l.stringSize_quoted, List.length_cons, Nat.mul_succ]
      show _ = l.bytes + StringLiteral.totalBytes ls + _
      omega

/-- A string directive keeps its tokens as strings, and its size is theirs with their terminators. -/
theorem IsRead.size_eq {s : Statement} (h : s.IsRead) (hkind : s.kind = .string) :
    s.strings = (tokens s.text.toList).tail.map String.ofList ∧
      s.size = totalSize s.terminatorOf s.strings := by
  cases h with
  | unknown hopcode _ =>
      rw [kind, hopcode] at hkind
      cases hkind
  | @known op hopcode hmnemonic _ hstrings hsize _ =>
      rw [kind, hopcode] at hkind
      have hkind : op.kind = .string := hkind
      rw [hsize, unitSize, hkind, ← hstrings]
      refine ⟨?_, ?_⟩
      · rw [hstrings, readingAs, Opcode.shape_of_string hmnemonic hkind, Reading.strings_ofTokens]
      · dsimp only
        rw [terminatorOf, totalSize]
        simp only [beq_iff_eq]

/-- How many bytes a directive with such a mnemonic takes for strings: their own, and one more for
    each unless it is the one that adds no terminators. -/
def directiveBytes (mnemonic : String) (ls : List StringLiteral) : Nat :=
  StringLiteral.totalBytes ls + if mnemonic = ".ascii" then 0 else ls.length

/-- A string directive whose tokens are strings of elements takes what these store, and adding it up
    in 32 bits overflows exactly if it has no place there. -/
theorem IsRead.size_of_strings {s : Statement} (h : s.IsRead) (hkind : s.kind = .string)
    {ls : List StringLiteral}
    (htokens : (tokens s.text.toList).tail = ls.map StringLiteral.quoted) :
    s.size = directiveBytes s.mnemonic ls ∧
      s.size32? =
        if directiveBytes s.mnemonic ls < 2 ^ 32 then some (directiveBytes s.mnemonic ls) else none := by
  obtain ⟨hstrings, hsize⟩ := h.size_eq hkind
  have hbytes : totalSize s.terminatorOf s.strings = directiveBytes s.mnemonic ls := by
    rw [hstrings, htokens, totalSize_quoted, terminatorOf, directiveBytes]
    split
    · rw [Nat.zero_mul]
    · rw [Nat.one_mul]
  refine ⟨hsize.trans hbytes, ?_⟩
  rw [size32?, totalSize32?_eq _ _ (by decide), hbytes, add32?, Nat.zero_add]

theorem toList_text_parse (text : List Char) (line : Nat) :
    (parse text line).text.toList = text := by
  rw [parse]
  dsimp only
  split <;> exact String.toList_ofList

/-- The sizes of strings count the bytes that are stored, as far as 32 bits go.  Between its quotes,
    a string of elements takes the UTF-8 bytes of its plain characters and one byte for each escape.
    A string directive whose tokens are such strings takes their bytes together, and one more for
    each unless it is `.ascii`, as a statement on its own and in its place in a program.  Added up in
    32 bits these are the sizes exactly if they are below 2^32; otherwise an addition overflows. -/
theorem string_sizes :
    (∀ l : StringLiteral, stringSize l.quoted = l.bytes ∧
        stringSize32? l.quoted = if l.bytes < 2 ^ 32 then some l.bytes else none) ∧
      (∀ (text : List Char) (line : Nat) (ls : List StringLiteral),
        (parse text line).kind = .string →
          (tokens text).tail = ls.map StringLiteral.quoted →
            (parse text line).size = directiveBytes (parse text line).mnemonic ls ∧
              (parse text line).size32? =
                if directiveBytes (parse text line).mnemonic ls < 2 ^ 32 then
                  some (directiveBytes (parse text line).mnemonic ls)
                else none) ∧
      ∀ (source : List Char) (config : Config) (i : Nat) (s : Placed) (ls : List StringLiteral),
        (Program.assemble source config).statements[i]? = some s → s.kind = .string →
          (tokens s.text.toList).tail = ls.map StringLiteral.quoted →
            s.size = directiveBytes s.mnemonic ls ∧
              s.size32? =
                if directiveBytes s.mnemonic ls < 2 ^ 32 then some (directiveBytes s.mnemonic ls)
                else none := by
  refine ⟨?_, ?_, ?_⟩
  · intro l
    refine ⟨l.stringSize_quoted, ?_⟩
    rw [stringSize32?_eq, l.stringSize_quoted, add32?, Nat.zero_add]
  · intro text line ls hkind htokens
    refine (isRead_parse text line).size_of_strings hkind ?_
    rw [toList_text_parse]
    exact htokens
  · intro source config i s ls hs hkind htokens
    obtain ⟨st, -, hread, heq⟩ := Program.exists_isRead_of_getElem? hs
    rw [heq] at hkind htokens ⊢
    rw [Placed.size_place_of_ne_align (by rw [show st.kind = .string from hkind]; decide)]
    exact hread.size_of_strings hkind htokens

/-- A string of so many letters. -/
def letters (n : Nat) : StringLiteral where
  elements := List.replicate n (.plain 'a' (by decide))
  separate := List.isChain_replicate_of_rel n trivial

theorem bytes_letters (n : Nat) : (letters n).bytes = n := by
  show (List.replicate n _).foldr (fun e n => Element.bytes e + n) 0 = n
  induction n with
  | zero => rfl
  | succ n ih =>
      rw [List.replicate_succ, List.foldr_cons, ih]
      exact Nat.add_comm 1 n

/-- A string of 2^32 letters stores 2^32 bytes, but counting them in 32 bits gives no size. -/
theorem letters_without_size :
    (letters (2 ^ 32)).bytes = 2 ^ 32 ∧ stringSize32? (letters (2 ^ 32)).quoted = none := by
  refine ⟨bytes_letters _, ?_⟩
  rw [stringSize32?_eq, StringLiteral.stringSize_quoted, bytes_letters, add32?]
  exact if_neg (Nat.lt_irrefl _)

/-- Four digits behind a backslash, a character of two bytes, an escaped quote and an escaped
    backslash. -/
def escapes : List Char :=
  ".asciz \"\\1234é\\\"\", \"\\\\\"".toList

/-- The strings of the directive, element by element. -/
def escapedLiterals : List StringLiteral :=
  [⟨[.octal ['1', '2', '3'] (by decide) (by decide) (by decide), .plain '4' (by decide),
      .plain 'é' (by decide), .escape '"' (by decide)],
      .cons_cons (fun hlt => absurd hlt (Nat.lt_irrefl 3))
        (.cons_cons trivial (.cons_cons trivial (.singleton _)))⟩,
    ⟨[.escape '\\' (by decide)], .singleton _⟩]

/-- Its first string takes five bytes, its second one, and each a terminator. -/
theorem escapes_size :
    (parse escapes 0).kind = .string ∧
      (tokens escapes).tail = escapedLiterals.map StringLiteral.quoted ∧
      (parse escapes 0).size = 8 ∧ (parse escapes 0).size32? = some 8 := by
  obtain ⟨hkind, htokens, hmnemonic⟩ : (parse escapes 0).kind = .string ∧
      (tokens escapes).tail = escapedLiterals.map StringLiteral.quoted ∧
      (parse escapes 0).mnemonic = ".asciz" := by
    decide +kernel
  have hbytes : directiveBytes ".asciz" escapedLiterals = 8 := by decide
  obtain ⟨hsize, hchecked⟩ := string_sizes.2.1 escapes 0 escapedLiterals hkind htokens
  rw [hmnemonic, hbytes] at hsize hchecked
  exact ⟨hkind, htokens, hsize, hchecked⟩

end Statement

end AsmCheck
