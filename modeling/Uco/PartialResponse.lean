import Uco.ByteRange
import Uco.FileResponse
import Uco.RespRoundTrip
import Uco.Ustring

/-! The answer to a Range request for a static file: what HandleRequest and GenHttpHeader
announce and what Write sends, where every usendfile call sends all that it is asked for. -/
namespace Uco.PartialResponse
open ByteRange Resp RespGrammar RespRoundTrip Ustring

section Model

abbrev Headers := List (Bytes × Bytes)

def overwrite (key value : Bytes) : Headers → Option Headers
  | [] => none
  | h :: rest =>
    if equalsIgnoreCase h.1 key then some ((key,value) :: rest) else (overwrite key value rest).map (h :: ·)

def setHeader (more : Headers) (key value : Bytes) : Headers :=
  if equalsIgnoreCase key (bytes "Set-Cookie") then more ++ [(key,value)]
  else (overwrite key value more).getD (more ++ [(key,value)])

def headerValue (more : Headers) (key : Bytes) : Option Bytes :=
  (more.find? fun h => equalsIgnoreCase h.1 key).map Prod.snd

structure Response where
  retCode : ℕ
  moreHeader : Headers
  partialFrom : Int
  partialTo : Int
  cached : Int
  deriving DecidableEq, Repr

inductive Handled where
  | errorPage (code : ℕ)
  | overflow
  | partialContent (r : Response)
  deriving DecidableEq, Repr

def chunksz : Int := 1024 * 256

def addInt (a b : Int) : Option Int := if -2^31 ≤ a + b ∧ a + b < 2^31 then some (a + b) else none

def slash : UInt8 := 47

def rangeText (f t size : Int) : Bytes :=
  bytes "bytes " ++ numberText f ++ dash :: numberText t ++ slash :: numberText size

def handleRange (header : Bytes) (cached : Int) (more : Headers) : Handled :=
  match parseRange header (toSize cached) with
  | (false,_) => .errorPage 400
  | (true,f,t) =>
    match addInt f chunksz with
    | none => .overflow
    | some behind =>
      let last := min t (behind - 1)
      let more := setHeader more (bytes "Accept-Ranges") (bytes "bytes")
      .partialContent ⟨206,setHeader more (bytes "Content-Range") (rangeText f last cached),f,last,cached⟩

namespace Response

def isPartial (r : Response) : Prop := r.partialFrom ≠ 0 ∨ r.partialTo ≠ 0
instance (r : Response) : Decidable r.isPartial := by unfold isPartial; infer_instance

def contentLength (r : Response) : ℕ :=
  toSize (if r.isPartial then r.partialTo - r.partialFrom + 1 else r.cached)

def sent (r : Response) (file : Bytes) : Bytes :=
  let offset := toSize (if r.isPartial then r.partialFrom else 0)
  let iTotal := toSize (if r.isPartial then r.partialTo - r.partialFrom + 1 else r.cached)
  let endpoint := toSize (if r.isPartial then r.partialTo + 1 else r.cached)
  if offset < endpoint then (file.drop offset).take iTotal else []

def body (r : Response) (head : Bool) (file : Bytes) : Bytes := if head then [] else r.sent file

end Response

structure Sends (file : Bytes) (head : Bool) (r : Response) (f t : ℕ) : Prop where
  inside : f ≤ t ∧ t < file.length
  retCode : r.retCode = 206
  contentRange : headerValue r.moreHeader (bytes "Content-Range") = some (rangeText f t file.length)
  contentLength : r.contentLength = t - f + 1
  body : r.body head file = if head then [] else (file.drop f).take (t - f + 1)

end Model

section Headers

theorem sameName (key : Bytes) : equalsIgnoreCase key key = true := by simp [equalsIgnoreCase]

theorem overwriteValue {key value : Bytes} {more changed : Headers} (found : overwrite key value more = some changed) :
    headerValue changed key = some value := by
  induction more generalizing changed with
  | nil => cases found
  | cons h rest ih =>
    simp only [overwrite] at found
    split at found
    · cases found
      simp [headerValue, sameName]
    · rename_i other
      obtain ⟨tail,inside,rfl⟩ := Option.map_eq_some_iff.mp found
      have later := ih inside
      simp only [headerValue, List.find?_cons, other] at later ⊢
      exact later

theorem overwriteNone {key value : Bytes} {more : Headers} (absent : overwrite key value more = none) :
    more.find? (fun h => equalsIgnoreCase h.1 key) = none := by
  induction more with
  | nil => rfl
  | cons h rest ih =>
    simp only [overwrite] at absent
    split at absent
    · cases absent
    · rename_i other
      rw [List.find?_cons, Bool.eq_false_iff.mpr other]
      exact ih (Option.map_eq_none_iff.mp absent)

theorem setHeaderValue (more : Headers) {key : Bytes} (value : Bytes)
    (single : equalsIgnoreCase key (bytes "Set-Cookie") = false) :
    headerValue (setHeader more key value) key = some value := by
  rw [setHeader, single, if_neg Bool.false_ne_true]
  rcases found : overwrite key value more with _ | changed
  · simp [headerValue, List.find?_append, overwriteNone found, sameName]
  · exact overwriteValue found

end Headers

section Texts

theorem digitsOnly {n : ℕ} {c : UInt8} (mem : c ∈ decimalText n) : isDigit c :=
  List.all_eq_true.mp (decimalDigits n) c mem

theorem numberInj {u v : Int} (same : numberText u = numberText v) : u = v := by
  have read := numberNumeral u
  rw [same, numberNumeral] at read
  exact (Option.some.inj read).symm

theorem noSlash (v : Int) : slash ∉ numberText v := by
  have digits : ∀ n, slash ∉ decimalText n := fun n mem => absurd (digitsOnly mem) (by decide)
  unfold numberText
  split
  · rw [List.mem_cons, not_or]
    exact ⟨by decide,digits _⟩
  · exact digits _

theorem numberOfNat (n : ℕ) : numberText n = decimalText n := by
  rw [numberText, if_neg (by omega), Int.natAbs_natCast]

theorem noDashInside (n : ℕ) : dash ∉ numberText n := by
  rw [numberOfNat]
  exact fun mem => absurd (digitsOnly mem) (by decide)

theorem rangeTextParts {f t size f' t' size' : Int} (same : rangeText f t size = rangeText f' t' size') :
    bytes "bytes " ++ numberText f ++ dash :: numberText t =
      bytes "bytes " ++ numberText f' ++ dash :: numberText t' ∧ size = size' := by
  have front : slash ∉ bytes "bytes " ++ numberText f ++ dash :: numberText t := by
    simp only [List.mem_append, List.mem_cons, not_or]
    exact ⟨⟨by decide,noSlash f⟩,by decide,noSlash t⟩
  obtain ⟨parts,_,sizes⟩ := (List.append_cons_inj_of_notMem front (noSlash size)).mp same
  exact ⟨parts,numberInj sizes⟩

theorem rangeTextInj {f t : ℕ} {size f' t' size' : Int} (same : rangeText f t size = rangeText f' t' size') :
    f' = f ∧ t' = t := by
  have front : dash ∉ bytes "bytes " ++ numberText f := by
    rw [List.mem_append, not_or]
    exact ⟨by decide,noDashInside f⟩
  obtain ⟨first,_,last⟩ := (List.append_cons_inj_of_notMem front (noDashInside t)).mp (rangeTextParts same).1
  exact ⟨(numberInj (List.append_cancel_left first)).symm,(numberInj last).symm⟩

end Texts

section Exact
variable {file header : Bytes} {more : Headers} {f t : Int} {head : Bool}

theorem toSizeNat {n : ℕ} (small : n < 2^64) : toSize n = n := by
  unfold toSize
  omega

theorem handled {cached : Int} (accepted : parseRange header (toSize cached) = (true,f,t)) :
    handleRange header cached more =
      if -2^31 ≤ f + chunksz ∧ f + chunksz < 2^31 then
        .partialContent ⟨206,setHeader (setHeader more (bytes "Accept-Ranges") (bytes "bytes"))
          (bytes "Content-Range") (rangeText f (min t (f + chunksz - 1)) cached),f,min t (f + chunksz - 1),cached⟩
      else .overflow := by
  simp only [handleRange, accepted, addInt]
  split_ifs <;> rfl

theorem rangeShown (f t size : Int) :
    headerValue (setHeader (setHeader more (bytes "Accept-Ranges") (bytes "bytes")) (bytes "Content-Range")
      (rangeText f t size)) (bytes "Content-Range") = some (rangeText f t size) :=
  setHeaderValue _ _ (by decide)

theorem sendsRange {r : Response} {f t : ℕ} (inside : f ≤ t ∧ t < file.length) (size : file.length < 2^31)
    (partly : f ≠ 0 ∨ t ≠ 0 ∨ file.length = 1) (retCode : r.retCode = 206)
    (contentRange : headerValue r.moreHeader (bytes "Content-Range") = some (rangeText f t file.length))
    (first : r.partialFrom = f) (last : r.partialTo = t) (cached : r.cached = file.length) :
    Sends file head r f t := by
  by_cases part : r.isPartial
  · have count : toSize (r.partialTo - r.partialFrom + 1) = t - f + 1 := by
      rw [first, last]
      unfold toSize
      omega
    have offset : toSize r.partialFrom = f := by rw [first, toSizeNat (by omega)]
    have endpoint : toSize (r.partialTo + 1) = t + 1 := by
      rw [last]
      unfold toSize
      omega
    refine ⟨inside,retCode,contentRange,by rw [Response.contentLength, if_pos part, count],?_⟩
    have more : f < t + 1 := by omega
    simp only [Response.body, Response.sent, if_pos part, count, offset, endpoint, if_pos more]
  · have zero : f = 0 ∧ t = 0 ∧ file.length = 1 := by
      simp only [Response.isPartial, first, last] at part
      omega
    obtain ⟨rfl,rfl,one⟩ := zero
    have whole : toSize r.cached = 1 := by
      rw [cached, one]
      rfl
    refine ⟨inside,retCode,contentRange,by rw [Response.contentLength, if_neg part, whole],?_⟩
    simp only [Response.body, Response.sent, if_neg part, whole]
    rfl

/- The range of an accepted header, cut to a chunk, is announced and sent exactly when the
file's size is an int, the chunk's end is an int, and the range is not the first byte alone. -/
theorem partialIff (some' : file ≠ [])
    (accepted : parseRange header (toSize (toInt file.length)) = (true,f,t)) :
    (∃ r a b, handleRange header (toInt file.length) more = .partialContent r ∧ Sends file head r a b) ↔
      file.length < 2^31 ∧ f + chunksz < 2^31 ∧ ¬(f = 0 ∧ t = 0 ∧ 1 < file.length) := by
  rw [handled accepted]
  constructor
  · rintro ⟨r,a,b,built,sends⟩
    split at built
    · rename_i fits
      cases built
      have shown := sends.contentRange
      rw [rangeShown] at shown
      have text := Option.some.inj shown
      have cached := (rangeTextParts text).2
      have size : file.length < 2^31 := by
        have range := toIntRange file.length
        omega
      refine ⟨size,fits.2,?_⟩
      rintro ⟨rfl,rfl,long⟩
      have ends := rangeTextInj text.symm
      have length := sends.contentLength
      have chunk : min (0 : Int) (0 + chunksz - 1) = 0 := by decide
      simp only [chunk] at ends length
      rw [Response.contentLength, if_neg (by simp [Response.isPartial]), cached, toSizeNat (by omega)] at length
      omega
    · cases built
  · rintro ⟨size,fits,first⟩
    have cached := toIntSmall size
    rw [cached, toSizeNat (by omega)] at accepted
    obtain ⟨low,order,high⟩ := acceptedInside size accepted
    obtain ⟨a,rfl⟩ := Int.eq_ofNat_of_zero_le low
    have chunk : chunksz = 262144 := rfl
    obtain ⟨b,last⟩ := Int.eq_ofNat_of_zero_le (show 0 ≤ min t (a + chunksz - 1) by omega)
    have length : 0 < file.length := List.length_pos_iff.mpr some'
    rw [if_pos (by omega), cached, last]
    have shown := @rangeShown more a b file.length
    have sends := @sendsRange file head ⟨206,_,a,b,file.length⟩ a b (by omega) size (by omega) rfl shown rfl rfl rfl
    exact ⟨_,a,b,rfl,sends⟩

end Exact

section Write
open FileResponse Interleaving Sendfile
variable {r : FileResponse.Response} {ts : Time} {u v : FileResponse.State}

end Write

section Uses

def tenBytes : Bytes := List.replicate 10 7

theorem middleSent : ∃ r a b, handleRange (bytes "bytes=2-5") (toInt tenBytes.length) [] = .partialContent r ∧
    Sends tenBytes false r a b :=
  (partialIff (f := 2) (t := 5) (by decide) (by decide)).mpr (by decide)

/- The first byte alone is announced as such in Content-Range, but Content-length is that of the
file, which is sent whole. -/
theorem firstByteWhole : ¬ ∀ (file header : Bytes) (f t : Int) (head : Bool), file ≠ [] →
    parseRange header (toSize (toInt file.length)) = (true,f,t) →
    ∃ r a b, handleRange header (toInt file.length) [] = .partialContent r ∧ Sends file head r a b := by
  intro right
  obtain ⟨r,a,b,built,sends⟩ := right tenBytes (bytes "bytes=0-0") 0 0 false (by decide) (by decide)
  have whole : handleRange (bytes "bytes=0-0") (toInt tenBytes.length) [] =
      .partialContent ⟨206,setHeader (setHeader [] (bytes "Accept-Ranges") (bytes "bytes"))
        (bytes "Content-Range") (rangeText 0 0 10),0,0,10⟩ := by decide +kernel
  rw [whole] at built
  cases built
  have shown := sends.contentRange
  rw [rangeShown] at shown
  have ends := rangeTextInj (Option.some.inj shown).symm
  have length := sends.contentLength
  have announced : Response.contentLength ⟨206,setHeader (setHeader [] (bytes "Accept-Ranges") (bytes "bytes"))
        (bytes "Content-Range") (rangeText 0 0 10),0,0,10⟩ = 10 := by decide
  omega

end Uses
end Uco.PartialResponse
