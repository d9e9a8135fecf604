import Calculator.Proofs.Text.Lines

/-!
# Texts as bytes

No byte of a character but the line feed is the byte of a line feed. Bytes may therefore be cut into
lines before they are decoded.

* `Text.encode`: the bytes of a text
* `Text.decode?_eq_some_iff`: they alone encode it
* `Text.readable_encode`: the whole of what encodes a text is readable
* `Text.lines_readable`: bytes are read line by line
-/

namespace Calculator.Text

/-- A text in UTF-8. -/
def encode (cs : List Char) : List UInt8 := cs.flatMap String.utf8EncodeChar

theorem encode_append (cs ds : List Char) : encode (cs ++ ds) = encode cs ++ encode ds :=
  List.flatMap_append

theorem encode_feed : encode ['\n'] = [10] := rfl

theorem encode_ne_nil {cs : List Char} (h : cs ≠ []) : encode cs ≠ [] := by
  obtain ⟨c, cs, rfl⟩ := List.exists_cons_of_ne_nil h
  exact List.append_ne_nil_of_left_ne_nil String.utf8EncodeChar_ne_nil _

theorem decode?_encode (cs : List Char) : decode? (encode cs) = some cs := by
  have hvalid : (encode cs).toByteArray.IsValidUTF8 := ⟨cs, rfl⟩
  rw [decode?, String.fromUTF8?, dif_pos hvalid]
  show some (String.ofList cs).toList = some cs
  rw [String.toList_ofList]

theorem decode?_eq_some_iff {bytes : List UInt8} {cs : List Char} :
    decode? bytes = some cs ↔ bytes = encode cs := by
  refine ⟨fun h => ?_, fun h => h ▸ decode?_encode cs⟩
  unfold decode? String.fromUTF8? at h
  split at h
  · next hvalid =>
    obtain rfl := Option.some.inj h
    rw [← List.toByteArray_inj]
    show bytes.toByteArray = List.utf8Encode (String.fromUTF8 bytes.toByteArray hvalid).toList
    rw [← String.toByteArray_ofList, String.ofList_toList]
    rfl
  · cases h

/-! ## Line feeds -/

theorem encode_ascii {c : Char} (h : c.toNat ≤ 127) :
    String.utf8EncodeChar c = [UInt8.ofNat c.toNat] := if_pos h

/-- A character beyond ASCII takes bytes that do not stand for a character of their own. -/
theorem le_toNat_of_mem_utf8EncodeChar {c : Char} (h : 127 < c.toNat) :
    ∀ b ∈ String.utf8EncodeChar c, 128 ≤ b.toNat := by
  have hval : ¬ c.val.toNat ≤ 127 := Nat.not_le.mpr h
  unfold String.utf8EncodeChar
  dsimp only
  rw [if_neg hval]
  split_ifs <;>
  · simp only [List.forall_mem_cons, List.not_mem_nil, false_imp_iff, implies_true, and_true,
      UInt8.toNat_ofNat']
    omega

theorem feed_mem_utf8EncodeChar {c : Char} (h : 10 ∈ String.utf8EncodeChar c) : c = '\n' := by
  rcases Nat.lt_or_ge 127 c.toNat with hhigh | hlow
  · exact absurd (le_toNat_of_mem_utf8EncodeChar hhigh 10 h) (by decide)
  · rw [encode_ascii hlow] at h
    have hnat : 10 = c.toNat % 2 ^ 8 := congrArg UInt8.toNat (List.mem_singleton.mp h)
    rw [Nat.mod_eq_of_lt (by omega)] at hnat
    exact Char.toNat_inj.mp hnat.symm

theorem feed_mem_encode {cs : List Char} : 10 ∈ encode cs ↔ '\n' ∈ cs := by
  rw [encode, List.mem_flatMap]
  constructor
  · rintro ⟨c, hc, hfeed⟩
    rwa [← feed_mem_utf8EncodeChar hfeed]
  · exact fun h => ⟨'\n', h, List.mem_singleton_self 10⟩

theorem byteLines_append {bytes : List UInt8} (h : 10 ∉ bytes) (rest : List UInt8) :
    byteLines (bytes ++ 10 :: rest) = (bytes ++ [10]) :: byteLines rest := by
  induction bytes with
  | nil => rfl
  | cons b bytes ih =>
    obtain ⟨hb, hbytes⟩ := List.ne_and_not_mem_of_not_mem_cons h
    rw [List.cons_append, byteLines, if_neg (Ne.symm hb), ih hbytes]
    rfl

theorem byteLines_of_not_mem {bytes : List UInt8} (hne : bytes ≠ []) (h : 10 ∉ bytes) :
    byteLines bytes = [bytes] := by
  induction bytes with
  | nil => exact absurd rfl hne
  | cons b bytes ih =>
    obtain ⟨hb, hbytes⟩ := List.ne_and_not_mem_of_not_mem_cons h
    rw [byteLines, if_neg (Ne.symm hb)]
    cases bytes with
    | nil => rfl
    | cons d ds => rw [ih (List.cons_ne_nil d ds) hbytes]

/-! ## Reading -/

theorem readable_append {line : List Char} (hfeed : '\n' ∉ line) (rest : List Char) :
    readable (encode (line ++ '\n' :: rest)) = line ++ '\n' :: readable (encode rest) := by
  have hbytes : encode (line ++ '\n' :: rest) = encode line ++ 10 :: encode rest :=
    encode_append line ('\n' :: rest)
  have hpiece : decode? (encode line ++ [10]) = some (line ++ ['\n']) := by
    rw [← encode_feed, ← encode_append, decode?_encode]
  rw [readable, hbytes, byteLines_append (mt feed_mem_encode.mp hfeed), decodeWhile, hpiece]
  simp [readable]

/-- All of what encodes a text is readable. -/
theorem readable_encode (text : List Char) : readable (encode text) = text := by
  obtain ⟨ls, hls⟩ := exists_lines text
  induction hls with
  | nil => rfl
  | unended hne hfeed =>
    rw [readable, byteLines_of_not_mem (encode_ne_nil hne) (mt feed_mem_encode.mp hfeed),
      decodeWhile, decode?_encode]
    exact List.append_nil _
  | feed hfeed _ _ ih => rw [readable_append hfeed, ih]
  | @returnFeed line rest _ hfeed _ ih =>
    have hreturn : '\n' ∉ line ++ ['\r'] := by simp [hfeed]
    have happend := readable_append hreturn rest
    rw [ih] at happend
    simpa using happend

/-! ## Reading line by line -/

/-- A line without its end. -/
def chomp (piece : List Char) : List Char :=
  if piece.getLast? = some '\n' then
    if piece.dropLast.getLast? = some '\r' then piece.dropLast.dropLast else piece.dropLast
  else piece

/-- The texts of pieces one by one, up to the first piece that encodes none. -/
def decodeEach (pieces : List (List UInt8)) : List (List Char) :=
  ((pieces.map decode?).takeWhile Option.isSome).filterMap id

theorem chomp_append_feed (line : List Char) :
    chomp (line ++ ['\n']) = if line.getLast? = some '\r' then line.dropLast else line := by
  rw [chomp, List.getLast?_concat, if_pos rfl, List.dropLast_concat]

theorem chomp_of_not_mem {line : List Char} (hfeed : '\n' ∉ line) : chomp line = line :=
  if_neg fun h => hfeed (List.mem_of_getLast? h)

theorem lines_append_feed {line : List Char} (hfeed : '\n' ∉ line) (rest : List Char) :
    lines (line ++ '\n' :: rest) = chomp (line ++ ['\n']) :: lines rest := by
  rw [chomp_append_feed]
  split
  · next hreturn =>
    obtain ⟨front, rfl⟩ := List.getLast?_eq_some_iff.mp hreturn
    have hfront : '\n' ∉ front := fun h => hfeed (List.mem_append_left _ h)
    rw [List.append_assoc, List.singleton_append, lines_returnFeed hfront, List.dropLast_concat]
  · next hreturn => rw [lines_feed hfeed hreturn]

/-- A piece that ends in the byte of a line feed has a text that ends in a line feed. -/
theorem exists_of_decode?_feed {bytes : List UInt8} {cs : List Char} (hbytes : 10 ∉ bytes)
    (h : decode? (bytes ++ [10]) = some cs) : ∃ line, cs = line ++ ['\n'] ∧ '\n' ∉ line := by
  rw [decode?_eq_some_iff] at h
  have hmem : 10 ∈ encode cs := h ▸ List.mem_append_right _ (List.mem_singleton_self 10)
  obtain ⟨line, rest, rfl, hline⟩ := List.eq_append_cons_of_mem (feed_mem_encode.mp hmem)
  have hsplit : bytes ++ 10 :: [] = encode line ++ 10 :: encode rest := by
    rw [h, encode_append]
    rfl
  obtain ⟨-, -, hrest⟩ := (List.append_cons_inj_of_notMem hbytes List.not_mem_nil).mp hsplit
  rcases eq_or_ne rest [] with rfl | hne
  · exact ⟨line, rfl, hline⟩
  · exact absurd hrest.symm (encode_ne_nil hne)

/-- Bytes may be read line by line. -/
theorem lines_readable (bytes : List UInt8) :
    lines (readable bytes) = (decodeEach (byteLines bytes)).map chomp := by
  by_cases hmem : 10 ∈ bytes
  · obtain ⟨piece, rest, rfl, hpiece⟩ := List.eq_append_cons_of_mem hmem
    rw [readable, byteLines_append hpiece, decodeWhile, decodeEach, List.map_cons]
    cases htext : decode? (piece ++ [10]) with
    | none => rfl
    | some cs =>
      obtain ⟨line, rfl, hline⟩ := exists_of_decode?_feed hpiece htext
      show lines ((line ++ ['\n']) ++ readable rest) =
        chomp (line ++ ['\n']) :: (decodeEach (byteLines rest)).map chomp
      rw [← lines_readable rest, List.append_assoc]
      exact lines_append_feed hline _
  · rcases eq_or_ne bytes [] with rfl | hne
    · rfl
    · rw [readable, byteLines_of_not_mem hne hmem, decodeWhile, decodeEach, List.map_cons]
      cases htext : decode? bytes with
      | none => rfl
      | some cs =>
        rw [decode?_eq_some_iff] at htext
        subst htext
        have hfeed : '\n' ∉ cs := mt feed_mem_encode.mpr hmem
        have hcs : cs ≠ [] := fun h => hne (h ▸ rfl)
        show lines (cs ++ []) = [chomp cs]
        rw [List.append_nil, lines_unended hcs hfeed, chomp_of_not_mem hfeed]
termination_by bytes.length
decreasing_by
  subst_vars
  simp
  omega

end Calculator.Text
