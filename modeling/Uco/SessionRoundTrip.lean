import Uco.SessionJson

/-! What the session writers dump, the session parsers read back: the escapes of
one byte, strings, members and items, whole objects and flash arrays. -/
namespace Uco.SessionJson

theorem parseStringSkips (out read tail : Bytes) :
    parseStringFrom read.length out (read ++ tail) = parseStringFrom 0 out tail := by
  induction read with
  | nil => rfl
  | cons b rest ih => simpa [parseStringFrom] using ih

theorem parseStringEscape {out ch tail : Bytes} (read : Bytes)
    (escape : parseEscape (read ++ tail) = some (ch, read.length)) :
    parseStringFrom 0 out (backslash :: read ++ tail) = parseStringFrom 0 (out ++ ch) tail := by
  rw [← parseStringSkips (out ++ ch) read tail]
  simp [parseStringFrom, escape, backslash, quote]

theorem shortEscapesRead : ∀ pair ∈ shortEscapes, simpleEscapes.lookup pair.2 = some pair.1 := by
  simp only [shortEscapes, List.forall_mem_cons]
  exact ⟨rfl, rfl, rfl, rfl, rfl, rfl, rfl, fun pair none => nomatch none⟩

theorem letterUEscapes : simpleEscapes.lookup letterU = none := by decide

theorem controlDigits : ∀ n < 32,
    hexValue (hexDigit (n.toUInt8 >>> (4 : UInt8))) = some (n / 16).toUInt8 ∧
    hexValue (hexDigit (n.toUInt8 &&& (15 : UInt8))) = some (n % 16).toUInt8 ∧
    (n / 16).toUInt8.toNat * 16 + (n % 16).toUInt8.toNat = n := by decide

theorem controlHex {ch : UInt8} (control : ch < 32) (tail : Bytes) :
    parseHex4 (48 :: 48 :: (hexOf [ch] ++ tail)) = some ch.toNat := by
  obtain ⟨high, low, sum⟩ := controlDigits ch.toNat control
  rw [show ch.toNat.toUInt8 = ch from UInt8.ofNat_toNat] at high low
  have zero : hexValue 48 = some 0 := by decide
  simp [hexOf, parseHex4, zero, high, low] at sum ⊢
  exact sum

theorem controlEscape {ch : UInt8} (control : ch < 32) (tail : Bytes) :
    parseEscape (letterU :: 48 :: 48 :: (hexOf [ch] ++ tail)) = some ([ch], 5) := by
  have small : ch.toNat < 32 := control
  have notHigh : ¬ 0xD800 ≤ ch.toNat := by omega
  have unicode : parseUnicode (48 :: 48 :: (hexOf [ch] ++ tail)) = some (ch.toNat, 4) := by
    simp only [parseUnicode, controlHex control, Option.bind_eq_bind, Option.bind_some, notHigh,
      false_and, if_false]
  have plain : utf8Append ch.toNat = [ch] := by
    rw [utf8Append, if_pos (by omega), show ch.toNat.toUInt8 = ch from UInt8.ofNat_toNat]
  simp [parseEscape, letterUEscapes, unicode, plain]

theorem escapedByte (ch : UInt8) (out tail : Bytes) :
    parseStringFrom 0 out (jsonEscapeByte ch ++ tail) = parseStringFrom 0 (out ++ [ch]) tail := by
  unfold jsonEscapeByte
  cases short : shortEscapes.lookup ch with
  | some letter =>
    obtain ⟨before, after, pairs, _⟩ := List.lookup_eq_some_iff.mp short
    have inside : (ch, letter) ∈ shortEscapes := by simp [pairs]
    have letterRead := shortEscapesRead _ inside
    refine parseStringEscape [letter] ?_
    simp [parseEscape, letterRead]
  | none =>
    simp only
    split
    · rename_i control
      refine parseStringEscape (letterU :: 48 :: 48 :: hexOf [ch]) ?_
      simpa using controlEscape control tail
    · rename_i printed
      have notQuote : ch ≠ quote := by rintro rfl; exact absurd short (by decide)
      have notBackslash : ch ≠ backslash := by rintro rfl; exact absurd short (by decide)
      simp [parseStringFrom, notQuote, notBackslash, printed]

theorem escapedBytes (s out tail : Bytes) :
    parseStringFrom 0 out (s.flatMap jsonEscapeByte ++ tail) = parseStringFrom 0 (out ++ s) tail := by
  induction s generalizing out with
  | nil => simp
  | cons ch rest ih =>
    rw [List.flatMap_cons, List.append_assoc, escapedByte, ih]
    simp

theorem eatHead {c : UInt8} (visible : isWs c = false) (tail : Bytes) : eat c (c :: tail) = some tail := by
  simp [eat, skipWs, visible]

theorem eatOther {c d : UInt8} (visible : isWs d = false) (other : d ≠ c) (tail : Bytes) :
    eat c (d :: tail) = none := by
  simp [eat, skipWs, visible, other]

theorem parseEscaped (s tail : Bytes) : parseString (jsonEscape s ++ tail) = some (s, tail) := by
  have body := escapedBytes s [] (quote :: tail)
  simp only [jsonEscape, List.cons_append, List.append_assoc, List.nil_append, parseString,
    eatHead (show isWs quote = false by decide), Option.bind_eq_bind, Option.bind_some, body]
  simp [parseStringFrom]

theorem parseDumpedMembers {members : List (Bytes × Bytes)} (some : members ≠ []) (rounds : Nat)
    (enough : members.length ≤ rounds) (kv : Values) (tail : Bytes) :
    parseMembers rounds kv (commaJoin (members.map dumpMember) ++ closeBrace :: tail) =
      (true, members.foldl (fun kv member => kv.insertIfNew member.1 member.2) kv, tail) := by
  induction members generalizing rounds kv with
  | nil => exact absurd rfl some
  | cons member rest ih =>
    obtain ⟨k, v⟩ := member
    cases rounds with
    | zero => simp at enough
    | succ rounds =>
      have colonSeen := eatHead (show isWs colon = false by decide)
      cases rest with
      | nil =>
        have noComma := eatOther (c := comma) (show isWs closeBrace = false by decide) (by decide) tail
        have closed := eatHead (show isWs closeBrace = false by decide) tail
        simp [parseMembers, commaJoin, dumpMember, parseEscaped, colonSeen, noComma, closed]
      | cons next rest =>
        have commaSeen := eatHead (show isWs comma = false by decide)
        have after := ih (by simp) rounds (by simpa using enough) (kv.insertIfNew k v)
        simp only [List.map_cons, List.foldl_cons] at after ⊢
        simp [parseMembers, commaJoin, dumpMember, parseEscaped, colonSeen, commaSeen] at after ⊢
        exact after

theorem foldedGet (members : List (Bytes × Bytes)) (kv : Values) (k : Bytes) :
    (members.foldl (fun kv member => kv.insertIfNew member.1 member.2) kv)[k]? =
      (kv[k]?).or (members.lookup k) := by
  induction members generalizing kv with
  | nil => simp
  | cons member rest ih =>
    obtain ⟨k', v⟩ := member
    rw [List.foldl_cons, ih, Std.ExtTreeMap.getElem?_insertIfNew]
    by_cases same : k' = k
    · subst same
      by_cases held : k' ∈ kv
      · simp [held]
      · simp [held]
    · have differ : (k == k') = false := by simpa using Ne.symm same
      simp [same, List.lookup_cons, differ]

theorem toListLookup (kv : Values) (k : Bytes) : kv.toList.lookup k = kv[k]? := by
  refine Option.ext fun v => ?_
  rw [List.lookup_eq_some_iff, ← Std.ExtTreeMap.mem_toList_iff_getElem?_eq_some]
  constructor
  · rintro ⟨before, after, split, _⟩
    simp [split]
  · intro inside
    obtain ⟨before, after, split⟩ := List.append_of_mem inside
    have distinct := kv.distinct_keys_toList
    rw [split, List.pairwise_append] at distinct
    refine ⟨before, after, split, fun pair earlier => ?_⟩
    have differ := distinct.2.2 pair earlier (k, v) List.mem_cons_self
    rw [Std.LawfulEqCmp.compare_eq_iff_eq] at differ
    exact bne_iff_ne.mpr (Ne.symm differ)

theorem rebuilt (kv : Values) :
    kv.toList.foldl (fun kv member => kv.insertIfNew member.1 member.2) ∅ = kv := by
  refine Std.ExtTreeMap.ext_getElem? fun k => ?_
  rw [foldedGet, toListLookup]
  simp

theorem commaJoinLength (items : List Bytes) (visible : ∀ item ∈ items, item ≠ []) :
    items.length ≤ (commaJoin items).length := by
  induction items with
  | nil => simp
  | cons item rest ih =>
    have long := List.length_pos_iff.mpr (visible item (by simp))
    cases rest with
    | nil => exact long
    | cons next rest =>
      have shorter := ih fun item inside => visible item (by simp [inside])
      simp only [commaJoin, List.length_append, List.length_cons] at shorter ⊢
      omega

theorem dumpMemberVisible (member : Bytes × Bytes) : dumpMember member ≠ [] := by
  simp [dumpMember, jsonEscape]

theorem emptyObject : parseSessionJson [openBrace, closeBrace] = (true, ∅) := rfl

theorem parseDumpedSession (kv : Values) : parseSessionJson (dumpSessionJson kv) = (true, kv) := by
  by_cases empty : kv.toList = []
  · rw [dumpSessionJson, empty, Std.ExtTreeMap.toList_eq_nil_iff.mp empty]
    exact emptyObject
  · have long := commaJoinLength (kv.toList.map dumpMember) fun item inside => by
      obtain ⟨member, _, rfl⟩ := List.mem_map.mp inside
      exact dumpMemberVisible member
    have members := parseDumpedMembers empty (dumpSessionJson kv).length
      (by simp [dumpSessionJson] at long ⊢; omega) ∅ []
    obtain ⟨first, quoted⟩ : ∃ first,
        commaJoin (kv.toList.map dumpMember) ++ [closeBrace] = quote :: first := by
      obtain ⟨member, rest, split⟩ := List.exists_cons_of_ne_nil empty
      rw [split]
      cases rest <;> simp [commaJoin, dumpMember, jsonEscape]
    have start : eat openBrace (dumpSessionJson kv) = some (quote :: first) := by
      rw [dumpSessionJson, List.cons_append, quoted, eatHead (by decide)]
    rw [quoted, rebuilt] at members
    have visible : skipWs (quote :: first) = quote :: first := rfl
    simp only [parseSessionJson, parse, start, visible, show quote ≠ closeBrace by decide, if_false,
      members]
    rfl

theorem parseDumpedItems {items : List Bytes} (some : items ≠ []) (rounds : Nat)
    (enough : items.length ≤ rounds) (out : List Bytes) (tail : Bytes) :
    parseItems rounds out (commaJoin (items.map jsonEscape) ++ closeBracket :: tail) =
      (true, out ++ items, tail) := by
  induction items generalizing rounds out with
  | nil => exact absurd rfl some
  | cons item rest ih =>
    cases rounds with
    | zero => simp at enough
    | succ rounds =>
      cases rest with
      | nil =>
        have noComma := eatOther (c := comma) (show isWs closeBracket = false by decide) (by decide) tail
        have closed := eatHead (show isWs closeBracket = false by decide) tail
        simp [parseItems, commaJoin, parseEscaped, noComma, closed]
      | cons next rest =>
        have commaSeen := eatHead (show isWs comma = false by decide)
        have after := ih (by simp) rounds (by simpa using enough) (out ++ [item])
        simp only [List.map_cons] at after
        simp [parseItems, commaJoin, parseEscaped, commaSeen] at after ⊢
        exact after

theorem emptyArray : parseFlashArray [openBracket, closeBracket] = (true, []) := rfl

theorem parseDumpedFlash (items : List Bytes) :
    parseFlashArray (dumpFlashArray items) = (true, items) := by
  by_cases empty : items = []
  · rw [empty]
    exact emptyArray
  · have long := commaJoinLength (items.map jsonEscape) fun item inside => by
      obtain ⟨text, _, rfl⟩ := List.mem_map.mp inside
      simp [jsonEscape]
    have read := parseDumpedItems empty (dumpFlashArray items).length
      (by simp [dumpFlashArray] at long ⊢; omega) [] []
    obtain ⟨first, quoted⟩ : ∃ first,
        commaJoin (items.map jsonEscape) ++ [closeBracket] = quote :: first := by
      obtain ⟨item, rest, split⟩ := List.exists_cons_of_ne_nil empty
      rw [split]
      cases rest <;> simp [commaJoin, jsonEscape]
    have start : eat openBracket (dumpFlashArray items) = some (quote :: first) := by
      rw [dumpFlashArray, List.cons_append, quoted, eatHead (by decide)]
    have notClosed : eat closeBracket (quote :: first) = none := eatOther (by decide) (by decide) first
    rw [quoted] at read
    have filled : dumpFlashArray items ≠ [] := by simp [dumpFlashArray]
    simp only [parseFlashArray, filled, if_false, start, notClosed, read]
    rfl

/- Serialisation loses nothing, whatever the bytes. -/
theorem serialisationRoundTrips : (∀ kv : Values, parseSessionJson (dumpSessionJson kv) = (true, kv)) ∧
    ∀ items : List Bytes, parseFlashArray (dumpFlashArray items) = (true, items) :=
  ⟨parseDumpedSession, parseDumpedFlash⟩

theorem dumpFlashInjective {left right : List Bytes} (same : dumpFlashArray left = dumpFlashArray right) :
    left = right := by
  have parsed := congrArg parseFlashArray same
  rw [parseDumpedFlash, parseDumpedFlash] at parsed
  exact (Prod.mk.inj parsed).2

theorem dumpSessionInjective {left right : Values} (same : dumpSessionJson left = dumpSessionJson right) :
    left = right := by
  have parsed := congrArg parseSessionJson same
  rw [parseDumpedSession, parseDumpedSession] at parsed
  exact (Prod.mk.inj parsed).2

end Uco.SessionJson
