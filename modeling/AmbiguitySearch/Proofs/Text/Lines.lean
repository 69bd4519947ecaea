import AmbiguitySearch.Text.Lines
import Mathlib.Data.List.TakeWhile

/-!
# Lines of bytes are lines of text

A file is cut into lines as bytes, and the lines are decoded afterwards. It makes no
difference to decode first, because an ASCII byte occurs in the encoding of its own character
only (`eq_of_mem_utf8EncodeChar`). So a newline in the bytes of a text is a newline in the
text, and bytes are text exactly if they are text before a newline and behind it.

> `decode?_append_cons`: an ASCII byte cuts what can be decoded into what can be decoded, and
> what cannot into parts of which one cannot.

> `filterMap_lines`: the lines are the pieces between newlines, each at its number, to whoever
> makes nothing of an empty line and takes no notice of a carriage return.
-/

namespace AmbiguitySearch.Text

/-- The bytes that encode a text. -/
def encode (text : List Char) : List UInt8 := text.flatMap String.utf8EncodeChar

theorem encode_append (text text' : List Char) : encode (text ++ text') = encode text ++ encode text' :=
  List.flatMap_append ..

theorem encode_cons (c : Char) (text : List Char) :
    encode (c :: text) = String.utf8EncodeChar c ++ encode text := List.flatMap_cons

theorem toByteArray_ofList (text : List Char) :
    (String.ofList text).toByteArray = ⟨(encode text).toArray⟩ := by
  rw [String.toByteArray_ofList]
  exact ByteArray.ext List.data_toByteArray

/-- Text that is encoded can be decoded. -/
theorem decode?_encode (text : List Char) : decode? (encode text) = some (String.ofList text) := by
  unfold decode? String.fromUTF8?
  rw [← toByteArray_ofList, dif_pos (String.ofList text).isValidUTF8]
  rfl

/-- Nothing else can. -/
theorem eq_encode_of_decode? {bytes : List UInt8} {text : String} (h : decode? bytes = some text) :
    bytes = encode text.toList := by
  unfold decode? String.fromUTF8? at h
  split at h
  next hvalid =>
    have htext : text.toByteArray = ⟨bytes.toArray⟩ := by
      cases h
      rfl
    rw [← String.ofList_toList (s := text), toByteArray_ofList] at htext
    have hlist := congrArg (fun array => array.data.toList) htext
    exact hlist.symm
  next => cases h

/-- An ASCII byte is in the encoding of its own character only. -/
theorem eq_of_mem_utf8EncodeChar {c : Char} {byte : UInt8} (hascii : byte.toNat < 128)
    (h : byte ∈ String.utf8EncodeChar c) : c.toNat = byte.toNat := by
  unfold String.utf8EncodeChar at h
  dsimp only at h
  have hval : c.val.toNat = c.toNat := rfl
  rw [hval] at h
  split at h
  next hsmall =>
    obtain rfl := List.mem_singleton.mp h
    rw [UInt8.toNat_ofNat']
    omega
  next =>
    exfalso
    split at h
    next =>
      simp only [List.mem_cons, List.not_mem_nil, or_false] at h
      rcases h with rfl | rfl <;> rw [UInt8.toNat_ofNat'] at hascii <;> omega
    next =>
      split at h
      next =>
        simp only [List.mem_cons, List.not_mem_nil, or_false] at h
        rcases h with rfl | rfl | rfl <;> rw [UInt8.toNat_ofNat'] at hascii <;> omega
      next =>
        simp only [List.mem_cons, List.not_mem_nil, or_false] at h
        rcases h with rfl | rfl | rfl | rfl <;> rw [UInt8.toNat_ofNat'] at hascii <;> omega

/-! ## Cutting at an ASCII byte -/

section Ascii

variable {c : Char} {byte : UInt8}

/-- Where an ASCII byte stands in the encoding of a text, its character stands in the text. -/
theorem exists_of_encode_eq (hc : String.utf8EncodeChar c = [byte]) (hascii : byte.toNat < 128) :
    ∀ {text : List Char} {front back : List UInt8}, encode text = front ++ byte :: back →
      ∃ before after, text = before ++ c :: after ∧ front = encode before ∧ back = encode after
  | [], front, back, h => by
    have hnil : front ++ byte :: back = [] := h.symm
    simp at hnil
  | d :: text, front, back, h => by
    rw [encode_cons] at h
    rcases List.append_eq_append_iff.mp h with ⟨later, rfl, htext⟩ | ⟨inside, hd, hback⟩
    · -- beyond the first character
      obtain ⟨before, after, rfl, rfl, rfl⟩ := exists_of_encode_eq hc hascii htext
      exact ⟨d :: before, after, rfl, (encode_cons d before).symm, rfl⟩
    · cases inside with
      | nil =>
        rw [List.append_nil] at hd
        have htext : encode text = [] ++ byte :: back := hback.symm
        obtain ⟨before, after, rfl, hbefore, rfl⟩ := exists_of_encode_eq hc hascii htext
        refine ⟨d :: before, after, rfl, ?_, rfl⟩
        rw [← hd, encode_cons, ← hbefore, List.append_nil]
      | cons first inside =>
        obtain ⟨rfl, rfl⟩ := List.cons.inj hback
        -- within the first character, which then is the one sought
        have hmem : byte ∈ String.utf8EncodeChar d := by simp [hd]
        have hmem' : byte ∈ String.utf8EncodeChar c := by simp [hc]
        have hsame : d = c := Char.toNat_inj.mp
          ((eq_of_mem_utf8EncodeChar hascii hmem).trans
            (eq_of_mem_utf8EncodeChar hascii hmem').symm)
        subst hsame
        rw [hc] at hd
        obtain ⟨rfl, hinside⟩ : front = [] ∧ inside = [] := by
          cases front with
          | nil => simpa using hd.symm
          | cons => simp at hd
        subst hinside
        exact ⟨[], text, rfl, rfl, rfl⟩

/-- **An ASCII byte cuts text into texts**, and what is no text into parts of which one is
none. -/
theorem decode?_append_cons (hc : String.utf8EncodeChar c = [byte]) (hascii : byte.toNat < 128)
    (front back : List UInt8) : decode? (front ++ byte :: back) =
      (decode? front).bind fun before => (decode? back).map fun after =>
        String.ofList (before.toList ++ c :: after.toList) := by
  cases hwhole : decode? (front ++ byte :: back) with
  | some text =>
    obtain ⟨before, after, htext, rfl, rfl⟩ :=
      exists_of_encode_eq hc hascii (eq_encode_of_decode? hwhole).symm
    simp only [decode?_encode, Option.bind_some, Option.map_some, String.toList_ofList]
    rw [← htext, String.ofList_toList]
  | none =>
    cases hfront : decode? front with
    | none => rfl
    | some before =>
      cases hback : decode? back with
      | none => rfl
      | some after =>
        have hencode : encode (before.toList ++ c :: after.toList) =
            encode before.toList ++ byte :: encode after.toList := by
          rw [encode_append, encode_cons, hc, List.singleton_append]
        rw [eq_encode_of_decode? hfront, eq_encode_of_decode? hback, ← hencode,
          decode?_encode] at hwhole
        cases hwhole

end Ascii

theorem decode?_append_newline (front back : List UInt8) : decode? (front ++ newline :: back) =
    (decode? front).bind fun before => (decode? back).map fun after =>
      String.ofList (before.toList ++ '\n' :: after.toList) :=
  decode?_append_cons rfl (by decide) front back

/-- Whether a line is text does not depend on how it ends. -/
theorem decode?_concat_carriageReturn (line : List UInt8) : decode? (line ++ [carriageReturn]) =
    (decode? line).map fun text => String.ofList (text.toList ++ ['\r']) := by
  have hchar : String.utf8EncodeChar '\r' = [carriageReturn] := rfl
  have hcut := decode?_append_cons hchar (by decide) line []
  have hnil : decode? [] = some "" := decode?_encode []
  rw [hcut, hnil]
  cases decode? line <;> rfl

/-! ## Lines and pieces -/

theorem lines_of_last {line : List UInt8} (hne : line ≠ []) (h : newline ∉ line) :
    lines line = [line] := by
  have hkept : line.dropWhile (· != newline) = [] := by
    refine List.dropWhile_eq_nil_iff.mpr fun byte hmem => ?_
    simpa using ne_of_mem_of_not_mem hmem h
  rw [lines, if_neg (by simpa using hne)]
  split
  next => rfl
  next heq =>
    rw [hkept] at heq
    cases heq

theorem lines_of_line {line rest : List UInt8} (h : newline ∉ line) :
    lines (line ++ newline :: rest) = withoutCarriageReturn line :: lines rest := by
  have hline : ∀ byte ∈ line, (byte != newline) = true := by
    intro byte hmem
    simpa using ne_of_mem_of_not_mem hmem h
  have htake : (line ++ newline :: rest).takeWhile (· != newline) = line := by
    rw [List.takeWhile_append_of_pos hline, List.takeWhile_cons_of_neg (by simp), List.append_nil]
  have hdrop : (line ++ newline :: rest).dropWhile (· != newline) = newline :: rest := by
    rw [List.dropWhile_append_of_pos hline, List.dropWhile_cons_of_neg (by simp)]
  rw [lines, if_neg (by simp), htake]
  split
  next heq =>
    rw [hdrop] at heq
    cases heq
  next heq =>
    rw [hdrop] at heq
    cases heq
    rfl

theorem withoutCarriageReturn_cases (line : List UInt8) :
    withoutCarriageReturn line = line ∨ line = withoutCarriageReturn line ++ [carriageReturn] := by
  unfold withoutCarriageReturn
  split
  next hlast =>
    obtain ⟨front, rfl⟩ := List.getLast?_eq_some_iff.mp hlast
    exact .inr (by rw [List.dropLast_concat])
  next => exact .inl rfl

/-- **The lines are the pieces between newlines, each at its number**, for any use of them that
makes nothing of an empty one, and takes no notice of a carriage return at the end. -/
theorem filterMap_lines {β : Type} {use : List UInt8 × Nat → Option β}
    (hnil : ∀ number, use ([], number) = none)
    (hend : ∀ line number, use (line ++ [carriageReturn], number) = use (line, number))
    (bytes : List UInt8) (number : Nat) : ((lines bytes).zipIdx number).filterMap use =
      ((bytes.splitOn newline).zipIdx number).filterMap use := by
  by_cases hmem : newline ∈ bytes
  · obtain ⟨line, rest, hbytes, hline⟩ := List.eq_append_cons_of_mem hmem
    have hshorter : rest.length < bytes.length := by
      rw [hbytes, List.length_append, List.length_cons]
      omega
    have hfirst : use (withoutCarriageReturn line, number) = use (line, number) := by
      rcases withoutCarriageReturn_cases line with hsame | hcut
      · rw [hsame]
      · conv => rhs; rw [hcut, hend]
    rw [hbytes, lines_of_line hline, List.splitOn_append_cons_self_of_not_mem hline, List.zipIdx_cons,
      List.zipIdx_cons, List.filterMap_cons, List.filterMap_cons, hfirst,
      filterMap_lines hnil hend rest]
  · rw [List.splitOn_eq_singleton hmem]
    by_cases hne : bytes = []
    · have hnone : lines [] = [] := by
        rw [lines]
        rfl
      rw [hne, hnone]
      simp [hnil]
    · rw [lines_of_last hne hmem]
termination_by bytes.length
decreasing_by exact hshorter

/-- **Bytes are no text if a piece of them between newlines is none**, and only then. -/
theorem decode?_eq_none_iff (bytes : List UInt8) :
    decode? bytes = none ↔ ∃ piece ∈ bytes.splitOn newline, decode? piece = none := by
  by_cases hmem : newline ∈ bytes
  · obtain ⟨line, rest, hbytes, hline⟩ := List.eq_append_cons_of_mem hmem
    have hshorter : rest.length < bytes.length := by
      rw [hbytes, List.length_append, List.length_cons]
      omega
    rw [hbytes, decode?_append_newline, List.splitOn_append_cons_self_of_not_mem hline]
    simp only [List.mem_cons, exists_eq_or_imp]
    rw [← decode?_eq_none_iff rest]
    cases decode? line with
    | none => simp
    | some before => simp
  · rw [List.splitOn_eq_singleton hmem]
    simp
termination_by bytes.length
decreasing_by exact hshorter

theorem newline_notMem_encode {line : List Char} (h : '\n' ∉ line) : newline ∉ encode line := by
  intro hmem
  obtain ⟨c, hc, hbyte⟩ := List.mem_flatMap.mp hmem
  have hnewline : c = '\n' := Char.toNat_inj.mp (eq_of_mem_utf8EncodeChar (by decide) hbyte)
  exact h (hnewline ▸ hc)

/-- It makes no difference whether text is cut before it is encoded or after. -/
theorem splitOn_encode (text : List Char) :
    (encode text).splitOn newline = (text.splitOn '\n').map encode := by
  by_cases hmem : '\n' ∈ text
  · obtain ⟨line, rest, htext, hline⟩ := List.eq_append_cons_of_mem hmem
    have hshorter : rest.length < text.length := by
      rw [htext, List.length_append, List.length_cons]
      omega
    have hencode : encode (line ++ '\n' :: rest) = encode line ++ newline :: encode rest :=
      encode_append line ('\n' :: rest)
    rw [htext, hencode, List.splitOn_append_cons_self_of_not_mem (newline_notMem_encode hline),
      List.splitOn_append_cons_self_of_not_mem hline, List.map_cons, splitOn_encode rest]
  · rw [List.splitOn_eq_singleton hmem, List.splitOn_eq_singleton (newline_notMem_encode hmem)]
    rfl
termination_by text.length
decreasing_by exact hshorter

end AmbiguitySearch.Text
