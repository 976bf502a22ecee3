import Uco.Bytes
import Uco.Buffer
import Uco.Interleaving
import Uco.Sendfile

/-! The file phase of HttpConnection::Write: what the header announces and what the
sendfile loop puts on the socket, whatever part of it each usendfile call accepts. -/
namespace Uco.FileResponse
open Interleaving Sendfile

def ECANCELED : ℕ := 125

/- m_pCache with the range; a range from 0 to 0 stands for the whole file. -/
structure Response where
  file : Bytes
  partialFrom : ℕ
  partialTo : ℕ
  size : file.length ≤ int32Max
  range : partialFrom = 0 ∧ partialTo = 0 ∨ partialFrom ≤ partialTo ∧ partialTo < file.length

namespace Response

def isPartial (r : Response) : Prop := r.partialFrom ≠ 0 ∨ r.partialTo ≠ 0
instance (r : Response) : Decidable r.isPartial := by unfold isPartial; infer_instance

def contentLength (r : Response) : ℕ :=
  if r.isPartial then r.partialTo - r.partialFrom + 1 else r.file.length

def slice (r : Response) : Bytes := (r.file.drop r.partialFrom).take r.contentLength

def firstOffset (r : Response) : ℕ := if r.isPartial then r.partialFrom else 0
def firstTotal (r : Response) : ℕ :=
  if r.isPartial then r.partialTo - r.partialFrom + 1 else r.file.length
def endpoint (r : Response) : ℕ := if r.isPartial then r.partialTo + 1 else r.file.length

end Response

structure Answer where
  sent : ℕ
  error : Option ℕ
  dr : ℕ
  deriving DecidableEq, Repr

inductive Phase where
  | sending
  | finished
  | failed
  deriving DecidableEq, Repr

structure State where
  phase : Phase
  offset : ℕ
  iTotal : ℕ
  ts : Time
  body : Bytes
  asked : List (ℕ × ℕ)
  deriving DecidableEq, Repr

variable (r : Response)

def start (ts : Time) : State := ⟨.sending,r.firstOffset,r.firstTotal,ts,[],[]⟩

def phaseAfter (ts : Time) (error : Option ℕ) : Phase :=
  if ts = ⟨0,0⟩ then .failed
  else if error = none ∨ error = some ECANCELED then .sending
  else .failed

/- oldoffset stays at the first offset, and iTotal -= (oldoffset - offset) is size_t. -/
def answered (s : State) (a : Answer) : State where
  phase := phaseAfter (advanceTs s.ts a.dr) a.error
  offset := s.offset + a.sent
  iTotal := subSize s.iTotal (subSize r.firstOffset (s.offset + a.sent))
  ts := advanceTs s.ts a.dr
  body := s.body ++ (r.file.drop s.offset).take a.sent
  asked := s.asked ++ [(s.offset,s.iTotal)]

inductive Step : State → State → Prop where
  | call {s} (a : Answer) (here : s.phase = .sending) (more : s.offset < r.endpoint)
      (atMost : a.sent ≤ s.iTotal) (inFile : s.offset + a.sent ≤ r.file.length) :
      Step s (answered r s a)
  | finish {s} (here : s.phase = .sending) (all : r.endpoint ≤ s.offset) : Step s {s with phase := .finished}

/- No call asks for a byte behind the slice. -/
def asksInside (s : State) : Prop := ∀ ask ∈ s.asked, ask.1 + ask.2 ≤ r.endpoint

structure Framed (s : State) : Prop where
  inside : asksInside r s
  exact : s.phase = .finished → s.body = r.slice ∧ s.body.length = r.contentLength

def callsFresh (s t : State) : Prop := s.asked.length < t.asked.length → s.body = []

structure Shape (s : State) : Prop where
  offset : s.offset = r.firstOffset + s.body.length
  total : s.iTotal = r.firstTotal + s.body.length
  body : s.body = (r.file.drop r.firstOffset).take s.body.length
  within : s.body.length ≤ r.firstTotal

section Steps
variable {r} {s t : State} {ts : Time}

theorem endpointEq (r : Response) : r.endpoint = r.firstOffset + r.firstTotal := by
  have range := r.range
  simp only [Response.endpoint, Response.firstOffset, Response.firstTotal]
  split
  · rename_i part
    simp only [Response.isPartial] at part
    omega
  · omega

theorem sliceEq (r : Response) : r.slice = (r.file.drop r.firstOffset).take r.firstTotal := by
  simp only [Response.slice, Response.contentLength, Response.firstOffset, Response.firstTotal]
  split
  · rfl
  · rename_i whole
    simp only [Response.isPartial, not_or, not_not] at whole
    rw [whole.1]

theorem totalFits (r : Response) : r.firstOffset + r.firstTotal ≤ r.file.length := by
  have range := r.range
  simp only [Response.firstOffset, Response.firstTotal]
  split
  · rename_i part
    simp only [Response.isPartial] at part
    omega
  · omega

theorem totalCountsUp (r : Response) {total sent : ℕ} (small : total + sent < 2^64) :
    subSize total (subSize r.firstOffset (r.firstOffset + sent)) = total + sent := by
  have first := totalFits r
  have size := r.size
  simp only [int32Max] at size
  simp only [subSize]
  omega

theorem startShape (r : Response) (ts : Time) : Shape r (start r ts) :=
  ⟨rfl,rfl,by simp [start],Nat.zero_le _⟩

theorem notFinished (ts : Time) (error : Option ℕ) : phaseAfter ts error ≠ .finished := by
  unfold phaseAfter
  split
  · exact nofun
  · split <;> exact nofun

theorem insideFresh (shape : Shape r s) (inside : s.offset + s.iTotal ≤ r.endpoint) : s.body = [] := by
  rw [endpointEq, shape.offset, shape.total] at inside
  exact List.eq_nil_of_length_eq_zero (by omega)

theorem freshInside (shape : Shape r s) (fresh : s.body = []) : s.offset + s.iTotal ≤ r.endpoint := by
  rw [endpointEq, shape.offset, shape.total, fresh]
  exact Nat.le_refl _

theorem answeredShape {a : Answer} (shape : Shape r s) (fresh : s.body = []) (atMost : a.sent ≤ s.iTotal) :
    Shape r (answered r s a) := by
  obtain ⟨offset,total,-,-⟩ := shape
  have fits := totalFits r
  have size := r.size
  simp only [int32Max] at size
  rw [fresh, List.length_nil, Nat.add_zero] at offset total
  have sent : ((r.file.drop r.firstOffset).take a.sent).length = a.sent := by
    rw [List.length_take, List.length_drop]
    omega
  constructor
  · simp only [answered, fresh, List.nil_append, offset, sent]
  · simp only [answered, fresh, List.nil_append, offset, total, sent]
    exact totalCountsUp r (by omega)
  · simp only [answered, fresh, List.nil_append, offset, sent]
  · simp only [answered, fresh, List.nil_append, offset, sent]
    omega

theorem answeredInside {a : Answer} :
    asksInside r (answered r s a) ↔ asksInside r s ∧ s.offset + s.iTotal ≤ r.endpoint := by
  simp only [asksInside, answered, List.forall_mem_append, List.forall_mem_singleton]

theorem stepShape (shape : Shape r s) (taken : Step r s t) (inside : asksInside r t) : Shape r t := by
  cases taken with
  | call a here more atMost inFile =>
    exact answeredShape shape (insideFresh shape (answeredInside.mp inside).2) atMost
  | finish here all => exact ⟨shape.offset,shape.total,shape.body,shape.within⟩

theorem stepInside (taken : Step r s t) (inside : asksInside r t) : asksInside r s := by
  cases taken with
  | call a here more atMost inFile => exact (answeredInside.mp inside).1
  | finish here all => exact inside

theorem runShape (reached : Reachable (Step r) (start r ts) s) (inside : asksInside r s) : Shape r s :=
  reachableInvariant (fun s => asksInside r s → Shape r s) (fun _ => startShape r ts)
    (fun _ _ old taken inside => stepShape (old (stepInside taken inside)) taken inside) reached inside

theorem stepFramed (shape : Shape r s) (old : Framed r s) (taken : Step r s t) :
    Framed r t ↔ callsFresh s t := by
  cases taken with
  | call a here more atMost inFile =>
    have asks : s.asked.length < (answered r s a).asked.length := by simp [answered]
    constructor
    · exact fun good _ => insideFresh shape (answeredInside.mp good.inside).2
    · intro fresh
      refine ⟨answeredInside.mpr ⟨old.inside,freshInside shape (fresh asks)⟩,fun finished => ?_⟩
      exact absurd finished (notFinished _ _)
  | finish here all =>
    refine iff_of_true ⟨old.inside,fun _ => ?_⟩ (fun asks => absurd asks (Nat.lt_irrefl _))
    have complete : s.body.length = r.firstTotal := by
      have := shape.within
      rw [endpointEq, shape.offset] at all
      omega
    refine ⟨?_,complete⟩
    rw [sliceEq, ← complete]
    exact shape.body

/- A response is framed as announced all along exactly when no call follows one that has
sent something. -/
theorem framedIff {run : List State} (chain : List.IsChain (Step r) (start r ts :: run)) :
    (∀ s ∈ run, Framed r s) ↔ List.IsChain callsFresh (start r ts :: run) :=
  runGoodIff (Framed r) (fun _ _ reached old taken => stepFramed (runShape reached old.inside) old taken)
    .refl ⟨by simp [asksInside, start],nofun⟩ chain

end Steps

section Uses

def firstTen : Response where
  file := List.replicate 20 7
  partialFrom := 0
  partialTo := 9
  size := by decide
  range := by decide

def oneSecond : Time := ⟨1,0⟩

theorem wholeCallFramed :
    Framed firstTen {answered firstTen (start firstTen oneSecond) ⟨10,none,0⟩ with phase := .finished} := by
  have call : Step firstTen (start firstTen oneSecond) (answered firstTen (start firstTen oneSecond) ⟨10,none,0⟩) :=
    .call _ rfl (by decide) (by decide) (by decide)
  refine (framedIff (.cons_cons call (.cons_cons (.finish rfl (by decide)) (.singleton _)))).mpr ?_ _
    (.tail _ (.head _))
  refine .cons_cons (fun _ => rfl) (.cons_cons (fun asks => ?_) (.singleton _))
  exact absurd asks (Nat.lt_irrefl _)

/- The first call sends four bytes; the second asks for fourteen and may send them all,
so eighteen bytes follow a Content-length of ten. -/
theorem shortCallOverruns : ∃ s, Reachable (Step firstTen) (start firstTen oneSecond) s ∧
    s.phase = .finished ∧ s.asked = [(0,10),(4,14)] ∧ s.body.length = 18 ∧ firstTen.contentLength = 10 ∧
    ¬Framed firstTen s := by
  have r0 : Reachable (Step firstTen) (start firstTen oneSecond) (start firstTen oneSecond) := .refl
  have r1 := r0.tail (.call ⟨4,none,0⟩ rfl (by decide) (by decide) (by decide))
  have r2 := r1.tail (.call ⟨14,none,0⟩ (by decide) (by decide) (by decide) (by decide))
  have r3 := r2.tail (.finish (by decide) (by decide))
  refine ⟨_,r3,rfl,by decide,by decide,by decide,fun good => ?_⟩
  have overrun := good.inside (4,14) (by decide)
  revert overrun
  decide

end Uses
end Uco.FileResponse
