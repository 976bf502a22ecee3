import Uco.HttpRequest
import Uco.Segments
import Uco.Ustring
import Mathlib.Data.List.Forall2

/-! Forms of the context: the decoding of one component, the parser of a urlencoded body and
the cached parse with a size limit for every call. -/
namespace Uco.Form
open HttpRequest (Request peekRawData splitAtByte splitNone splitSome splitParts)
open Ustring (charToHex percent plus space)
open Segments

abbrev FormFields := Std.ExtTreeMap Bytes Bytes

section Model

def ampersand : UInt8 := 38
def equalsSign : UInt8 := 61

@[simp] def decodeComponent : Bytes → Option Bytes
  | [] => some []
  | c :: rest =>
    if c = plus then (decodeComponent rest).map (space :: ·)
    else if c = percent then
      match rest with
      | a :: b :: rest =>
        match charToHex a, charToHex b with
        | some high, some low => (decodeComponent rest).map ((high <<< 4 ||| low) :: ·)
        | _, _ => none
      | _ => none
    else (decodeComponent rest).map (c :: ·)

theorem decodeBlank (rest : Bytes) : decodeComponent (plus :: rest) = (decodeComponent rest).map (space :: ·) := by
  rw [decodeComponent.eq_def]
  simp only [if_true]

theorem decodeLiteral {c : UInt8} (plain : c ≠ plus ∧ c ≠ percent) (rest : Bytes) :
    decodeComponent (c :: rest) = (decodeComponent rest).map (c :: ·) := by
  rw [decodeComponent.eq_def]
  simp only [plain.1, plain.2, if_false]

def entry (item : Bytes) : Option (Bytes × Bytes) := do
  let (key,value) ← splitAtByte equalsSign item
  let key ← decodeComponent key
  let value ← decodeComponent value
  if key = [] then none else some (key,value)

@[simp] def parseItems (fields : FormFields) : List Bytes → Bool × FormFields
  | [] => (true,fields)
  | item :: rest =>
    match entry item with
    | none => (false,fields)
    | some (key,value) => if key ∈ fields then (false,fields) else parseItems (fields.insert key value) rest

def parseUrlencoded (body : Bytes) : Bool × FormFields :=
  let (read,fields) := parseItems ∅ (segments ampersand body)
  (read && !fields.isEmpty,fields)

inductive FormState where
  | unparsed | valid | invalid
  deriving DecidableEq, Repr

structure HttpContext where
  request : Option Request
  formState : FormState
  formBodySize : ℕ
  formFields : FormFields

def HttpContext.of (r : Request) : HttpContext := ⟨some r,.unparsed,0,∅⟩

def shouldBindForm (ctx : HttpContext) (maxBodySize : ℕ) : Option FormFields × HttpContext :=
  if ctx.formState = .valid then (if ctx.formBodySize ≤ maxBodySize then some ctx.formFields else none,ctx)
  else
    match ctx.formState, ctx.request with
    | .invalid, _ => (none,ctx)
    | _, none => (none,ctx)
    | _, some r =>
      let body := peekRawData r
      let ctx := { ctx with formBodySize := body.length }
      if body = [] then (none,{ ctx with formState := .invalid })
      else if body.length > maxBodySize then (none,{ ctx with formState := .invalid })
      else
        match parseUrlencoded body with
        | (false,fields) => (none,{ ctx with formState := .invalid, formFields := fields })
        | (true,fields) =>
          -- the fields are the context's own, the body is used up
          let ctx := { ctx with
            request := some { r with buffer := r.buffer.retrieve r.contentLength.toNat }
            formState := .valid
            formFields := fields }
          (some fields,ctx)

@[simp] def bindForms (ctx : HttpContext) : List ℕ → List (Option FormFields)
  | [] => []
  | limit :: limits =>
    let (answer,ctx) := shouldBindForm ctx limit
    answer :: bindForms ctx limits

end Model

section Purpose

inductive Encodes : Bytes → Bytes → Prop
  | nil : Encodes [] []
  | blank {value text : Bytes} (rest : Encodes value text) : Encodes (space :: value) (plus :: text)
  | escape {c a b high low : UInt8} {value text : Bytes} (first : charToHex a = some high)
      (second : charToHex b = some low) (byte : high <<< 4 ||| low = c) (rest : Encodes value text) :
      Encodes (c :: value) (percent :: a :: b :: text)
  | literal {c : UInt8} {value text : Bytes} (plain : c ≠ plus ∧ c ≠ percent ∧ c ≠ ampersand ∧ c ≠ equalsSign)
      (rest : Encodes value text) : Encodes (c :: value) (c :: text)

def EncodesPair (pair : Bytes × Bytes) (item : Bytes) : Prop :=
  ∃ key value, Encodes pair.1 key ∧ Encodes pair.2 value ∧ item = key ++ equalsSign :: value

def Malformed (text : Bytes) : Prop :=
  ∃ before after, text = before ++ percent :: after ∧
    ¬∃ a b rest, after = a :: b :: rest ∧ (charToHex a).isSome ∧ (charToHex b).isSome

def keyOf (item : Bytes) : Option Bytes := (splitAtByte equalsSign item).bind fun parts => decodeComponent parts.1

inductive Refused (body : Bytes) : Prop
  | escape {key value : Bytes} (inside : key ++ equalsSign :: value ∈ body.splitOn ampersand)
      (clean : equalsSign ∉ key) (malformed : Malformed key ∨ Malformed value)
  | bare {before after : List Bytes} {item : Bytes} (items : body.splitOn ampersand = before ++ item :: after)
      (none' : equalsSign ∉ item) (counts : item ≠ [] ∨ after ≠ [] ∨ before = [])
  | nameless {item : Bytes} (inside : item ∈ body.splitOn ampersand) (empty : keyOf item = some [])
  | twice (same : ¬((body.splitOn ampersand).filterMap keyOf).Nodup)

end Purpose

section Components

theorem encodesDecoded {value text : Bytes} (encodes : Encodes value text) : decodeComponent text = some value := by
  induction encodes with
  | nil => rfl
  | blank _ ih => rw [decodeBlank, ih, Option.map_some]
  | escape first second byte _ ih =>
    rw [decodeComponent, if_neg (by decide), if_pos rfl]
    simp only [first, second, ih, Option.map_some, byte]
  | literal plain _ ih => rw [decodeLiteral ⟨plain.1,plain.2.1⟩, ih, Option.map_some]

theorem hexPlain {a high : UInt8} (digit : charToHex a = some high) :
    a ≠ percent ∧ a ≠ ampersand ∧ a ≠ equalsSign := by
  have other {c : UInt8} (none' : charToHex c = none) : a ≠ c := by
    rintro rfl
    rw [none'] at digit
    cases digit
  exact ⟨other (by decide),other (by decide),other (by decide)⟩

theorem encodesClean {value text : Bytes} (encodes : Encodes value text) : ampersand ∉ text ∧ equalsSign ∉ text := by
  induction encodes with
  | nil => simp
  | blank _ ih =>
    have apart : ampersand ≠ plus ∧ equalsSign ≠ plus := by decide
    simp [apart, ih]
  | escape first second _ _ ih =>
    have apart : ampersand ≠ percent ∧ equalsSign ≠ percent := by decide
    have one := hexPlain first
    have two := hexPlain second
    simp [apart, ih, one.2.1.symm, one.2.2.symm, two.2.1.symm, two.2.2.symm]
  | literal plain _ ih => simp [ih, plain.2.2.1.symm, plain.2.2.2.symm]

theorem malformedTail {c : UInt8} {rest : Bytes} (malformed : Malformed (c :: rest)) :
    (c = percent ∧ ¬∃ a b tail, rest = a :: b :: tail ∧ (charToHex a).isSome ∧ (charToHex b).isSome) ∨
      Malformed rest := by
  obtain ⟨before,after,text,bad⟩ := malformed
  cases before with
  | nil =>
    obtain ⟨rfl,rfl⟩ := List.cons.inj text
    exact .inl ⟨rfl,bad⟩
  | cons d before => exact .inr ⟨before,after,(List.cons.inj text).2,bad⟩

theorem malformedBehind {c : UInt8} {rest : Bytes} (other : c ≠ percent) (malformed : Malformed (c :: rest)) :
    Malformed rest :=
  (malformedTail malformed).resolve_left fun bad => other bad.1

theorem malformedRefused {text : Bytes} (malformed : Malformed text) : decodeComponent text = none := by
  fun_induction decodeComponent text with
  | case1 =>
    obtain ⟨before,after,text,_⟩ := malformed
    simp at text
  | case2 rest ih => rw [ih (malformedBehind (by decide) malformed), Option.map_none]
  | case3 a b rest high low second first _ ih =>
    have behind := (malformedTail malformed).resolve_left fun bad =>
      bad.2 ⟨a,b,rest,rfl,by rw [first]; rfl,by rw [second]; rfl⟩
    rw [ih (malformedBehind (hexPlain second).1 (malformedBehind (hexPlain first).1 behind)), Option.map_none]
  | case4 => rfl
  | case5 => rfl
  | case6 c rest _ other ih => rw [ih (malformedBehind other malformed), Option.map_none]

end Components

section Items

theorem entrySome {item key value : Bytes} (read : entry item = some (key,value)) :
    keyOf item = some key ∧ key ≠ [] ∧ ∃ k v, item = k ++ equalsSign :: v ∧ equalsSign ∉ k ∧
      decodeComponent k = some key ∧ decodeComponent v = some value := by
  simp only [entry, bind, Option.bind_eq_some_iff] at read
  obtain ⟨⟨k,v⟩,cut,key',first,value',second,last⟩ := read
  split at last
  · cases last
  · cases last
    obtain ⟨rfl,clean⟩ := splitParts cut
    exact ⟨by rw [keyOf, cut]; exact first,‹_›,k,v,rfl,clean,first,second⟩

theorem entryEncoded {pair : Bytes × Bytes} {item : Bytes} (encodes : EncodesPair pair item) (named : pair.1 ≠ []) :
    entry item = some pair := by
  obtain ⟨key,value,first,second,rfl⟩ := encodes
  simp [entry, splitSome (encodesClean first).2, encodesDecoded first, encodesDecoded second, named]

theorem parseItemsTrue {items : List Bytes} {fields : FormFields} :
    (parseItems fields items).1 = true ↔ (∀ item ∈ items, (entry item).isSome) ∧
      ((items.filterMap entry).map Prod.fst).Nodup ∧ ∀ e ∈ items.filterMap entry, e.1 ∉ fields := by
  induction items generalizing fields with
  | nil => simp
  | cons item items ih =>
    rw [parseItems]
    cases read : entry item with
    | none => simp [read]
    | some e =>
      by_cases there : e.1 ∈ fields
      · simp [read, there]
      · simp only [there, if_false, ih, List.filterMap_cons, read, List.map_cons, List.nodup_cons, List.mem_map,
          List.forall_mem_cons, Option.isSome_some, true_and, not_exists, not_and, Std.ExtTreeMap.mem_insert,
          Std.LawfulEqCmp.compare_eq_iff_eq, not_or, not_false_eq_true]
        constructor
        · rintro ⟨all,nodup,fresh⟩
          exact ⟨all,⟨fun x inside same => (fresh x inside).1 same.symm,nodup⟩,fun x inside => (fresh x inside).2⟩
        · rintro ⟨all,⟨apart,nodup⟩,fresh⟩
          exact ⟨all,nodup,fun x inside => ⟨fun same => apart x inside same.symm,fresh x inside⟩⟩

theorem parseItemsFields {items : List Bytes} {fields : FormFields} (read : (parseItems fields items).1 = true)
    (key value : Bytes) : (parseItems fields items).2[key]? = some value ↔
      (key,value) ∈ items.filterMap entry ∨ fields[key]? = some value := by
  induction items generalizing fields with
  | nil => simp
  | cons item items ih =>
    rw [parseItems] at read ⊢
    cases one : entry item with
    | none => simp [one] at read
    | some e =>
      simp only [one] at read ⊢
      by_cases there : e.1 ∈ fields
      · simp [there] at read
      · rw [if_neg there] at read ⊢
        rw [ih read, Std.ExtTreeMap.getElem?_insert, List.filterMap_cons, one]
        simp only [Std.LawfulEqCmp.compare_eq_iff_eq, List.mem_cons]
        by_cases here : e.1 = key
        · subst here
          have absent : fields[e.1]? = none := Std.ExtTreeMap.getElem?_eq_none there
          obtain ⟨k,v⟩ := e
          simp only [if_true, Option.some.injEq, absent, Prod.mk.injEq, true_and, reduceCtorEq, or_false]
          rw [or_comm, eq_comm]
        · simp only [here, if_false]
          constructor
          · exact Or.imp_left .inr
          · rintro ((rfl | inside) | old)
            · exact absurd rfl here
            · exact .inl inside
            · exact .inr old

end Items

section Bodies
variable {body : Bytes}

theorem parseTrue : (parseUrlencoded body).1 = true ↔
    (parseItems ∅ (segments ampersand body)).1 = true ∧ (parseUrlencoded body).2 ≠ ∅ := by
  simp [parseUrlencoded]

theorem notIn (items : List Bytes) : ∀ e ∈ items.filterMap entry, e.1 ∉ (∅ : FormFields) := by simp

theorem itemRead {item : Bytes} (inside : item ∈ body.splitOn ampersand) (more : item ≠ []) :
    item ∈ segments ampersand body := by
  rw [splitOnSegments, List.mem_append] at inside
  refine inside.resolve_right fun last => more ?_
  split at last
  · exact List.mem_singleton.mp last
  · cases last

theorem keysOfBody : (body.splitOn ampersand).filterMap keyOf = (segments ampersand body).filterMap keyOf := by
  rw [splitOnSegments, List.filterMap_append]
  split <;> simp [show keyOf [] = none from rfl]

theorem keysOfEntries {items : List Bytes} (all : ∀ item ∈ items, (entry item).isSome) :
    items.filterMap keyOf = (items.filterMap entry).map Prod.fst := by
  rw [List.map_filterMap]
  refine List.filterMap_congr fun item inside => ?_
  obtain ⟨e,read⟩ := Option.isSome_iff_exists.mp (all item inside)
  rw [read, (entrySome read).1, Option.map_some]

theorem entryParts {key value : Bytes} (clean : equalsSign ∉ key)
    (read : (entry (key ++ equalsSign :: value)).isSome) :
    (decodeComponent key).isSome ∧ (decodeComponent value).isSome := by
  obtain ⟨e,read⟩ := Option.isSome_iff_exists.mp read
  obtain ⟨_,_,k,v,text,plain,first,second⟩ := entrySome read
  have cut := splitSome plain v
  rw [← text, splitSome clean] at cut
  cases cut
  rw [first, second]
  exact ⟨rfl,rfl⟩

theorem emptyUnread {before after : List Bytes} (items : body.splitOn ampersand = before ++ [] :: after)
    (unread : [] ∉ segments ampersand body) : after = [] ∧ before = segments ampersand body := by
  rw [splitOnSegments, List.append_eq_append_iff] at items
  obtain ⟨rest,front,tail⟩ | ⟨rest,front,tail⟩ := items
  · have short := congrArg List.length tail
    split at tail
    · simp only [if_pos ‹_ ∨ _›, List.length_append, List.length_cons, List.length_nil] at short
      have first : rest = [] := List.eq_nil_of_length_eq_zero (by omega)
      exact ⟨List.eq_nil_of_length_eq_zero (by omega),by rw [front, first, List.append_nil]⟩
    · simp at tail
  · cases rest with
    | nil =>
      rw [List.append_nil] at front
      split at tail
      · exact ⟨(List.cons.inj tail).2,front.symm⟩
      · cases tail
    | cons item rest =>
      rw [List.cons_append] at tail
      exact absurd (by rw [front, ← (List.cons.inj tail).1]; simp) unread

theorem refusedFalse (refused : Refused body) : (parseUrlencoded body).1 = false := by
  refine Bool.eq_false_iff.mpr fun accepted => ?_
  obtain ⟨read,more⟩ := parseTrue.mp accepted
  obtain ⟨all,nodup,_⟩ := parseItemsTrue.mp read
  cases refused with
  | escape inside clean malformed =>
    obtain ⟨first,second⟩ := entryParts clean (all _ (itemRead inside (by simp)))
    rcases malformed with bad | bad
    · rw [malformedRefused bad] at first
      cases first
    · rw [malformedRefused bad] at second
      cases second
  | @bare before after item items none' counts =>
    have unread : item ∉ segments ampersand body := fun inside => by
      obtain ⟨e,read⟩ := Option.isSome_iff_exists.mp (all item inside)
      obtain ⟨_,_,k,v,text,_⟩ := entrySome read
      simp [text] at none'
    have empty : item = [] := by
      by_contra more
      exact unread (itemRead (items ▸ by simp) more)
    subst empty
    obtain ⟨rfl,alone⟩ := emptyUnread items unread
    rw [alone] at counts
    have none : segments ampersand body = [] := by simpa using counts
    exact more (by rw [parseUrlencoded, none]; rfl)
  | @nameless item inside empty =>
    have text : item ≠ [] := by
      rintro rfl
      cases empty
    obtain ⟨e,read⟩ := Option.isSome_iff_exists.mp (all item (itemRead inside text))
    obtain ⟨key,named,_⟩ := entrySome read
    rw [key] at empty
    exact named (Option.some.inj empty)
  | twice same =>
    rw [keysOfBody, keysOfEntries all] at same
    exact same nodup

theorem encodedItems {pairs : List (Bytes × Bytes)} {items : List Bytes} (named : ∀ p ∈ pairs, p.1 ≠ [])
    (encoded : List.Forall₂ EncodesPair pairs items) :
    (∀ item ∈ items, ampersand ∉ item ∧ item ≠ [] ∧ (entry item).isSome) ∧ items.filterMap entry = pairs := by
  induction encoded with
  | nil => simp
  | @cons pair item pairs items one _ ih =>
    obtain ⟨head,tail⟩ := List.forall_mem_cons.mp named
    have read := entryEncoded one head
    obtain ⟨each,rest⟩ := ih tail
    refine ⟨List.forall_mem_cons.mpr ⟨?_,each⟩,by rw [List.filterMap_cons, read, rest]⟩
    obtain ⟨key,value,first,second,rfl⟩ := one
    have apart : ampersand ≠ equalsSign := by decide
    refine ⟨?_,by simp,by rw [read]; rfl⟩
    simp [(encodesClean first).1, (encodesClean second).1, apart]

theorem encodedRead {pairs : List (Bytes × Bytes)} {items : List Bytes} (some' : pairs ≠ [])
    (distinct : (pairs.map Prod.fst).Nodup) (named : ∀ p ∈ pairs, p.1 ≠ [])
    (encoded : List.Forall₂ EncodesPair pairs items) :
    (parseUrlencoded ([ampersand].intercalate items)).1 = true ∧
    ∀ key value, (parseUrlencoded ([ampersand].intercalate items)).2[key]? = some value ↔ (key,value) ∈ pairs := by
  obtain ⟨each,entries⟩ := encodedItems named encoded
  have cut : segments ampersand ([ampersand].intercalate items) = items :=
    segmentsJoined (fun item inside => (each item inside).1)
      fun last same => (each last (List.mem_of_getLast? same)).2.1
  have read : (parseItems ∅ items).1 = true := by
    refine parseItemsTrue.mpr ⟨fun item inside => (each item inside).2.2,?_,notIn items⟩
    rwa [entries]
  have fields : ∀ key value, (parseUrlencoded ([ampersand].intercalate items)).2[key]? = some value ↔
      (key,value) ∈ pairs := by
    intro key value
    rw [parseUrlencoded, cut, ← entries]
    simpa using parseItemsFields read key value
  refine ⟨parseTrue.mpr ⟨by rwa [cut],fun empty => ?_⟩,fields⟩
  obtain ⟨⟨key,value⟩,inside⟩ := List.exists_mem_of_ne_nil pairs some'
  have found := (fields key value).mpr inside
  rw [empty] at found
  simp at found

theorem formsInverted :
    (∀ pairs items, pairs ≠ [] → (pairs.map Prod.fst).Nodup → (∀ p ∈ pairs, p.1 ≠ []) →
      List.Forall₂ EncodesPair pairs items →
        (parseUrlencoded ([ampersand].intercalate items)).1 = true ∧
        ∀ key value, (parseUrlencoded ([ampersand].intercalate items)).2[key]? = some value ↔ (key,value) ∈ pairs) ∧
    ∀ body, Refused body → (parseUrlencoded body).1 = false :=
  ⟨fun _ _ => encodedRead,fun _ => refusedFalse⟩

theorem keyForm : (parseUrlencoded (bytes "k=+%26")).1 = true ∧ (parseUrlencoded (bytes "k=1&%6b=2")).1 = false := by
  have key : Encodes [107] [107] := .literal (by decide) .nil
  have value : Encodes [32,38] [43,37,50,54] := .blank (.escape rfl rfl (by decide) .nil)
  have text : bytes "k=+%26" = [ampersand].intercalate [[107,61,43,37,50,54]] := by decide
  refine ⟨?_,formsInverted.2 _ (.twice (by decide))⟩
  rw [text]
  exact (formsInverted.1 [([107],[32,38])] _ (by decide) (by decide) (by decide)
    (.cons ⟨[107],[43,37,50,54],key,value,rfl⟩ .nil)).1

theorem smallRead {body : Bytes} (items : segments ampersand body = [bytes "a=1"]) : (parseUrlencoded body).1 = true := by
  have item : entry (bytes "a=1") = some (bytes "a",bytes "1") := by decide
  simp [parseUrlencoded, items, item]

/- Nothing behind the last ampersand is an item of the body, but not one the loop comes to. -/
theorem trailingAmpersand :
    ¬∀ body, (∃ item ∈ body.splitOn ampersand, equalsSign ∉ item) → (parseUrlencoded body).1 = false := by
  intro always
  have items : segments ampersand (bytes "a=1" ++ [ampersand]) = [bytes "a=1"] := by
    rw [segmentsCons (by decide), segmentsNil]
  have refused := always (bytes "a=1" ++ [ampersand]) ⟨[],by decide,by decide⟩
  rw [smallRead items] at refused
  cases refused

end Bodies

section Limits

def validForm (body : Bytes) : Prop := body ≠ [] ∧ (parseUrlencoded body).1 = true

instance (body : Bytes) : Decidable (validForm body) := by unfold validForm; infer_instance

/- Each call answers by the body and its own limit. -/
def Independent (body : Bytes) (limits : List ℕ) (answers : List (Option FormFields)) : Prop :=
  List.Forall₂ (fun limit answer => answer =
    if validForm body ∧ body.length ≤ limit then some (parseUrlencoded body).2 else none) limits answers

theorem bindsValid {ctx : HttpContext} (valid : ctx.formState = .valid) (limits : List ℕ) :
    bindForms ctx limits = limits.map fun limit => if ctx.formBodySize ≤ limit then some ctx.formFields else none := by
  induction limits with
  | nil => rfl
  | cons limit limits ih => rw [bindForms, shouldBindForm, if_pos valid, List.map_cons, ← ih]

theorem bindsInvalid {ctx : HttpContext} (invalid : ctx.formState = .invalid) (limits : List ℕ) :
    bindForms ctx limits = limits.map fun _ => none := by
  induction limits with
  | nil => rfl
  | cons limit limits ih =>
    rw [bindForms, shouldBindForm, if_neg (by rw [invalid]; decide), invalid]
    simp only [List.map_cons, ih]

theorem bindsFirst (r : Request) (first : ℕ) (limits : List ℕ) :
    bindForms (.of r) (first :: limits) = (first :: limits).map fun limit =>
      if (validForm (peekRawData r) ∧ (peekRawData r).length ≤ first) ∧ (peekRawData r).length ≤ limit
        then some (parseUrlencoded (peekRawData r)).2 else none := by
  rw [bindForms, shouldBindForm, HttpContext.of]
  simp only [reduceCtorEq, if_false]
  by_cases empty : peekRawData r = []
  · simp [validForm, empty, bindsInvalid]
  · by_cases large : (peekRawData r).length > first
    · simp [empty, large, Nat.not_le.mpr large, bindsInvalid]
    · have fits := Nat.not_lt.mp large
      rw [if_neg empty, if_neg large]
      obtain ⟨ok,fields,parsed⟩ : ∃ ok fields, parseUrlencoded (peekRawData r) = (ok,fields) := ⟨_,_,rfl⟩
      have valid : validForm (peekRawData r) ↔ ok = true := by rw [validForm, parsed, and_iff_right empty]
      simp only [parsed, valid]
      cases ok with
      | false => simp [bindsInvalid]
      | true => simp [fits, bindsValid]

theorem limitsIndependent (r : Request) (limits : List ℕ) :
    Independent (peekRawData r) limits (bindForms (.of r) limits) ↔
      (validForm (peekRawData r) → (∀ first ∈ limits.head?, (peekRawData r).length ≤ first) ∨
        ∀ limit ∈ limits, limit < (peekRawData r).length) := by
  cases limits with
  | nil => simp [Independent]
  | cons first limits =>
    rw [bindsFirst, Independent, List.forall₂_map_right_iff, List.forall₂_same]
    simp only [List.head?_cons, Option.mem_some_iff, forall_eq']
    constructor
    · intro each valid
      by_cases fits : (peekRawData r).length ≤ first
      · exact .inl fits
      · refine .inr fun limit inside => Nat.not_le.mp fun room => ?_
        have answer := each limit inside
        simp [valid, fits, room] at answer
    · intro exact' limit inside
      by_cases valid : validForm (peekRawData r)
      · rcases exact' valid with fits | small
        · simp [valid, fits]
        · simp [valid, Nat.not_le.mpr (small limit inside)]
      · simp [valid]

def smallForm : Request :=
  { Request.fresh with
    state := .finish
    contentLength := 3
    buffer := (Buffer.new 1024).append (bytes "a=1") }

theorem smallFormRead : peekRawData smallForm = bytes "a=1" ∧ validForm (bytes "a=1") := by
  refine ⟨?_,by decide,smallRead (segmentsLast (by decide) (by decide))⟩
  rw [smallForm, peekRawData, if_pos rfl, Buffer.appendNew (by decide) (by decide)]
  simp only [List.drop_zero]
  exact List.take_left' rfl

theorem largeLimitFirst : Independent (peekRawData smallForm) [1024,2] (bindForms (.of smallForm) [1024,2]) :=
  (limitsIndependent smallForm [1024,2]).mpr fun _ => .inl (by rw [smallFormRead.1]; decide)

theorem smallLimitFirst : ¬∀ r limits, r.state = .finish →
    Independent (peekRawData r) limits (bindForms (.of r) limits) := by
  intro always
  have each := always smallForm [2,1024] rfl
  obtain ⟨body,valid⟩ := smallFormRead
  rw [bindsFirst, Independent, List.forall₂_map_right_iff, List.forall₂_same] at each
  have large : ¬(bytes "a=1").length ≤ 2 ∧ (bytes "a=1").length ≤ 1024 := by decide
  have answer := each 1024 (by simp)
  rw [body, if_neg (fun small => large.1 small.1.2), if_pos ⟨valid,large.2⟩] at answer
  cases answer

end Limits

end Uco.Form
