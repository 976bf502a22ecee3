import Uco.Bytes
import Uco.ShmLog
import Mathlib.Data.Finset.Card
import Mathlib.Data.Finset.Range
import Mathlib.Algebra.GroupWithZero.Nat

/-! consume_and_write as one function of the node array: the reversal of the drained list and
the walk that writes every record to the file of the current or of the previous hour. -/
namespace Uco.LogFile
open ShmLog (LogNode logNodeCount logNodeDataMaxSize maxLogFileSize)
open IndexedList

section Model

structure Nodes where
  node : ℕ → LogNode
  full : ∀ i, (node i).logData.length = logNodeDataMaxSize

def Nodes.setNext (nodes : Nodes) (i : ℕ) (next : Option ℕ) : Nodes where
  node := Function.update nodes.node i {nodes.node i with next := next}
  full := by
    intro k
    by_cases here : k = i
    · subst here
      rw [Function.update_self]
      exact nodes.full k
    · rw [Function.update_of_ne here]
      exact nodes.full k

def reverseLogList (nodes : Nodes) (visited : Finset ℕ) (prev : Option ℕ) : Option ℕ → Nodes × Option ℕ
  | none => (nodes,prev)
  | some curr =>
    if _seen : curr ∈ visited then (nodes,prev)
    else if _inside : curr < logNodeCount then
      reverseLogList (nodes.setNext curr prev) (insert curr visited) (some curr) (nodes.node curr).next
    else (nodes,prev)
  termination_by (Finset.range logNodeCount \ visited).card
  decreasing_by exact visitedShrinks _seen (Finset.mem_range.mpr _inside)

structure Output where
  calls : ℕ
  prev : List (ℕ × Bytes)
  curr : List (ℕ × Bytes)
  totalWrittenPrev : ℕ
  totalWritten : ℕ
  accumulatedWritten : ℕ
  deriving Repr

def prevHour (curHour : Int) : Int := if curHour - 1 > 0 then curHour - 1 else 23

/- `fwrite` gives what the n-th call returns for so many bytes, `getHour` is the local time's hour. -/
variable (fwrite : ℕ → ℕ → ℕ) (getHour : ℕ → Int) (curHour : Int) (fpPrev : Bool)

def writeNode (o : Output) (node : LogNode) : Output :=
  let len := min node.logLen logNodeDataMaxSize
  let count := fwrite o.calls len
  if getHour node.timestamp = prevHour curHour ∧ fpPrev then
    if o.totalWrittenPrev + len < maxLogFileSize then
      {o with calls := o.calls + 1, prev := o.prev ++ [(node.timestamp,node.logData.take count)],
              totalWrittenPrev := o.totalWrittenPrev + count}
    else o
  else
    {o with calls := o.calls + 1, curr := o.curr ++ [(node.timestamp,node.logData.take count)],
            totalWritten := o.totalWritten + count, accumulatedWritten := o.accumulatedWritten + count}

def writeLogList (nodes : Nodes) (visited : Finset ℕ) (o : Output) : Option ℕ → Output
  | none => o
  | some curr =>
    if _seen : curr ∈ visited then o
    else if _inside : curr < logNodeCount then
      writeLogList nodes (insert curr visited) (writeNode fwrite getHour curHour fpPrev o (nodes.node curr))
        (nodes.node curr).next
    else o
  termination_by (Finset.range logNodeCount \ visited).card
  decreasing_by exact visitedShrinks _seen (Finset.mem_range.mpr _inside)

def consumeAndWrite (nodes : Nodes) (headIdx : Option ℕ) (fp : Bool) (o : Output) : Nodes × Output :=
  if headIdx = none ∨ fp = false then (nodes,o)
  else
    let (nodes,first) := reverseLogList nodes ∅ none headIdx
    (nodes,writeLogList fwrite getHour curHour fpPrev nodes ∅ o first)

end Model

section Lists
variable {nodes : Nodes}

def links (nodes : Nodes) (i : ℕ) : Option ℕ := (nodes.node i).next

def content (node : LogNode) : ℕ × Bytes := (node.timestamp,node.logData.take (min node.logLen logNodeDataMaxSize))

def records (nodes : Nodes) (cells : List ℕ) : List (ℕ × Bytes) := cells.reverse.map fun i => content (nodes.node i)

theorem contentLength (nodes : Nodes) (i : ℕ) :
    (content (nodes.node i)).2.length = min (nodes.node i).logLen logNodeDataMaxSize := by
  rw [content, List.length_take, nodes.full]
  omega

theorem setNextLinks (nodes : Nodes) (i : ℕ) (next : Option ℕ) :
    links (nodes.setNext i next) = Function.update (links nodes) i next := by
  funext k
  by_cases here : k = i
  · subst here
    simp [links, Nodes.setNext]
  · simp [links, Nodes.setNext, here]

theorem setNextContent (nodes : Nodes) (i : ℕ) (next : Option ℕ) (k : ℕ) :
    content ((nodes.setNext i next).node k) = content (nodes.node k) := by
  by_cases here : k = i
  · subst here
    simp [content, Nodes.setNext]
  · simp [Nodes.setNext, here]

theorem setNextFields (nodes : Nodes) (i : ℕ) (next : Option ℕ) (k : ℕ) :
    (nodes.setNext i next).node k = {nodes.node k with next := links (nodes.setNext i next) k} := by
  by_cases here : k = i
  · subst here
    simp [links, Nodes.setNext]
  · simp [links, Nodes.setNext, here]

theorem reverseTurns {rest turned : List ℕ} {visited : Finset ℕ} {prev curr tail : Option ℕ}
    (before : Linked (links nodes) prev turned) (ahead : Leads (links nodes) curr rest tail)
    (apart : (turned ++ rest).Nodup) (new : ∀ a ∈ rest, a ∉ visited) (inside : ∀ a ∈ rest, a < logNodeCount)
    (stops : ∀ a, tail = some a → a ∈ visited ∨ a ∈ rest) :
    ∃ nodes' first, reverseLogList nodes visited prev curr = (nodes',first) ∧
      Linked (links nodes') first (rest.reverse ++ turned) ∧
      (∀ k, nodes'.node k = {nodes.node k with next := links nodes' k}) ∧
      ∀ k ∉ rest, nodes'.node k = nodes.node k := by
  induction rest generalizing nodes turned visited prev curr with
  | nil =>
    refine ⟨nodes,prev,?_,by simpa using before,fun _ => rfl,fun _ _ => rfl⟩
    obtain rfl := ahead
    cases curr with
    | none => rw [reverseLogList]
    | some a =>
      have seen := (stops a rfl).resolve_right List.not_mem_nil
      rw [reverseLogList, dif_pos seen]
  | cons a rest ih =>
    obtain ⟨rfl,ahead⟩ := ahead
    obtain ⟨back,front⟩ := leadsTurn before ahead apart
    rw [← setNextLinks] at back front
    have split := List.nodup_middle.mp apart
    have other : ∀ b ∈ rest, b ≠ a := by
      rintro b mem rfl
      exact (List.nodup_cons.mp split).1 (List.mem_append_right _ mem)
    obtain ⟨nodes',first,result,linked,fields,others⟩ := ih back front (by simpa using split)
      (fun b mem seen => (Finset.mem_insert.mp seen).elim (other b mem) (new b (List.mem_cons_of_mem a mem)))
      (fun b mem => inside b (List.mem_cons_of_mem a mem)) (fun b here => (stops b here).elim
        (fun seen => .inl (Finset.mem_insert_of_mem seen)) fun mem => (List.mem_cons.mp mem).elim
          (fun same => .inl (same ▸ Finset.mem_insert_self a visited)) .inr)
    refine ⟨nodes',first,?_,by simpa using linked,fun k => ?_,fun k out => ?_⟩
    · rw [reverseLogList, dif_neg (new a List.mem_cons_self), dif_pos (inside a List.mem_cons_self)]
      exact result
    · rw [fields k, setNextFields]
    · obtain ⟨apart,out⟩ := not_or.mp (List.mem_cons.not.mp out)
      rw [others k out]
      exact Function.update_of_ne apart ..

theorem reverseWalks {path : List ℕ} {head tail : Option ℕ} (walk : Walk (links nodes) head path tail)
    (inside : ∀ a ∈ path, a < logNodeCount) :
    ∃ nodes' first, reverseLogList nodes ∅ none head = (nodes',first) ∧ Linked (links nodes') first path.reverse ∧
      (∀ k, nodes'.node k = {nodes.node k with next := links nodes' k}) ∧
      ∀ k ∉ path, nodes'.node k = nodes.node k := by
  have before : Linked (links nodes) none [] := rfl
  have turns := reverseTurns before walk.leads (by simpa using walk.once) (fun a _ => Finset.notMem_empty a) inside
    (fun a here => .inr (walk.stops a here))
  simpa only [List.append_nil] using turns

end Lists

section Walk
variable {fwrite : ℕ → ℕ → ℕ} {getHour : ℕ → Int} {curHour : Int} {fpPrev : Bool} {nodes : Nodes}

def writeRecord (getHour : ℕ → Int) (curHour : Int) (fpPrev : Bool) (o : Output) (r : ℕ × Bytes) : Output :=
  if getHour r.1 = prevHour curHour ∧ fpPrev then
    if o.totalWrittenPrev + r.2.length < maxLogFileSize then
      {o with calls := o.calls + 1, prev := o.prev ++ [r], totalWrittenPrev := o.totalWrittenPrev + r.2.length}
    else o
  else
    {o with calls := o.calls + 1, curr := o.curr ++ [r], totalWritten := o.totalWritten + r.2.length,
            accumulatedWritten := o.accumulatedWritten + r.2.length}

theorem writeNodeRecord (succeeds : ∀ n len, fwrite n len = len) (o : Output) (i : ℕ) :
    writeNode fwrite getHour curHour fpPrev o (nodes.node i) =
      writeRecord getHour curHour fpPrev o (content (nodes.node i)) := by
  rw [writeNode, writeRecord, contentLength]
  simp only [succeeds]
  rfl

theorem writeVisits {cells : List ℕ} {visited : Finset ℕ} {curr : Option ℕ} (linked : Linked (links nodes) curr cells)
    (new : ∀ a ∈ cells, a ∉ visited) (inside : ∀ a ∈ cells, a < logNodeCount) (o : Output) :
    writeLogList fwrite getHour curHour fpPrev nodes visited o curr =
      cells.foldl (fun o i => writeNode fwrite getHour curHour fpPrev o (nodes.node i)) o := by
  have nodup := linkedNodup linked
  induction cells generalizing visited curr o with
  | nil =>
    obtain rfl := linked
    rw [writeLogList]
    rfl
  | cons a rest ih =>
    obtain ⟨rfl,ahead⟩ := linked
    obtain ⟨other,nodup⟩ := List.nodup_cons.mp nodup
    rw [writeLogList, dif_neg (new a List.mem_cons_self), dif_pos (inside a List.mem_cons_self), List.foldl_cons]
    refine ih ahead (fun b mem seen => ?_) (fun b mem => inside b (List.mem_cons_of_mem a mem)) _ nodup
    rcases Finset.mem_insert.mp seen with rfl | seen
    · exact other mem
    · exact new b (List.mem_cons_of_mem a mem) seen

theorem consumeVisits {path : List ℕ} {head tail : Option ℕ} (walk : Walk (links nodes) head path tail)
    (inside : ∀ a ∈ path, a < logNodeCount) (o : Output) :
    consumeAndWrite fwrite getHour curHour fpPrev nodes head true o = ((reverseLogList nodes ∅ none head).1,
      path.reverse.foldl (fun o i => writeNode fwrite getHour curHour fpPrev o (nodes.node i)) o) := by
  obtain ⟨nodes',first,result,linked,fields,-⟩ := reverseWalks walk inside
  have same : ∀ o i, writeNode fwrite getHour curHour fpPrev o (nodes'.node i) =
      writeNode fwrite getHour curHour fpPrev o (nodes.node i) := by
    intro o i
    rw [fields i]
    rfl
  cases head with
  | none =>
    have empty : path = [] := by
      cases path with
      | nil => rfl
      | cons a rest => cases walk.leads.1
    rw [empty, consumeAndWrite, if_pos (.inl rfl), reverseLogList]
    rfl
  | some a =>
    rw [consumeAndWrite, if_neg (by simp), result]
    simp only [writeVisits linked (fun a _ => Finset.notMem_empty a)
      (fun a mem => inside a (List.mem_reverse.mp mem)), same]

theorem consumeWrites {cells : List ℕ} {head : Option ℕ} (succeeds : ∀ n len, fwrite n len = len)
    (linked : Linked (links nodes) head cells) (inside : ∀ a ∈ cells, a < logNodeCount) (o : Output) :
    (consumeAndWrite fwrite getHour curHour fpPrev nodes head true o).2 =
      (records nodes cells).foldl (writeRecord getHour curHour fpPrev) o := by
  have walk : Walk (links nodes) head cells none := ⟨linkedLeads.mp linked,linkedNodup linked,nofun⟩
  rw [consumeVisits walk inside, records, List.foldl_map]
  simp only [writeNodeRecord succeeds]

end Walk

section Routing
variable {getHour : ℕ → Int} {curHour : Int} {fpPrev : Bool} {rs : List (ℕ × Bytes)} {o : Output}

def sizeOf (rs : List (ℕ × Bytes)) : ℕ := (rs.map fun r => r.2.length).sum

def ToPrev (getHour : ℕ → Int) (curHour : Int) (fpPrev : Bool) (r : ℕ × Bytes) : Bool :=
  getHour r.1 = prevHour curHour ∧ fpPrev

theorem currWritten : ((rs.foldl (writeRecord getHour curHour fpPrev) o).curr =
      o.curr ++ rs.filter fun r => ¬ToPrev getHour curHour fpPrev r) ∧
    (rs.foldl (writeRecord getHour curHour fpPrev) o).totalWritten =
      o.totalWritten + sizeOf (rs.filter fun r => ¬ToPrev getHour curHour fpPrev r) ∧
    (rs.foldl (writeRecord getHour curHour fpPrev) o).accumulatedWritten =
      o.accumulatedWritten + sizeOf (rs.filter fun r => ¬ToPrev getHour curHour fpPrev r) := by
  induction rs generalizing o with
  | nil => simp [sizeOf]
  | cons r rs ih =>
    obtain ⟨curr,total,accumulated⟩ := @ih (writeRecord getHour curHour fpPrev o r)
    rw [List.foldl_cons, curr, total, accumulated, List.filter_cons]
    by_cases back : getHour r.1 = prevHour curHour ∧ fpPrev
    · have there : ToPrev getHour curHour fpPrev r = true := by simpa [ToPrev] using back
      have kept : (writeRecord getHour curHour fpPrev o r).curr = o.curr ∧
          (writeRecord getHour curHour fpPrev o r).totalWritten = o.totalWritten ∧
          (writeRecord getHour curHour fpPrev o r).accumulatedWritten = o.accumulatedWritten := by
        rw [writeRecord, if_pos back]
        split <;> exact ⟨rfl,rfl,rfl⟩
      simp [there, kept]
    · have here : ToPrev getHour curHour fpPrev r = false := by simpa [ToPrev] using back
      rw [writeRecord, if_neg back]
      simp [here, sizeOf, Nat.add_assoc]

theorem prevWritten : ∃ kept, kept.Sublist (rs.filter (ToPrev getHour curHour fpPrev)) ∧
    (rs.foldl (writeRecord getHour curHour fpPrev) o).prev = o.prev ++ kept ∧
    (rs.foldl (writeRecord getHour curHour fpPrev) o).totalWrittenPrev = o.totalWrittenPrev + sizeOf kept ∧
    (o.totalWrittenPrev < maxLogFileSize → o.totalWrittenPrev + sizeOf kept < maxLogFileSize) ∧
    (o.totalWrittenPrev + sizeOf (rs.filter (ToPrev getHour curHour fpPrev)) < maxLogFileSize →
      kept = rs.filter (ToPrev getHour curHour fpPrev)) := by
  induction rs generalizing o with
  | nil => exact ⟨[],List.Sublist.refl _,by simp,by simp [sizeOf],by simp [sizeOf],fun _ => rfl⟩
  | cons r rs ih =>
    obtain ⟨kept,part,prev,total,below,whole⟩ := @ih (writeRecord getHour curHour fpPrev o r)
    rw [List.foldl_cons, prev, total, List.filter_cons]
    rw [total] at *
    by_cases back : getHour r.1 = prevHour curHour ∧ fpPrev
    · have there : ToPrev getHour curHour fpPrev r = true := by simpa [ToPrev] using back
      by_cases fits : o.totalWrittenPrev + r.2.length < maxLogFileSize
      · have wrote : writeRecord getHour curHour fpPrev o r = {o with
            calls := o.calls + 1, prev := o.prev ++ [r], totalWrittenPrev := o.totalWrittenPrev + r.2.length} := by
          rw [writeRecord, if_pos back, if_pos fits]
        rw [wrote] at below whole ⊢
        simp only at below whole ⊢
        have sum : ∀ l : List (ℕ × Bytes), sizeOf (r :: l) = r.2.length + sizeOf l := fun l => by simp [sizeOf]
        simp only [there, if_true, sum]
        refine ⟨r :: kept,part.cons_cons r,by simp,by rw [sum]; omega,fun _ => ?_,fun room => ?_⟩
        · rw [sum]
          have := below fits
          omega
        · rw [whole (by omega)]
      · have skipped : writeRecord getHour curHour fpPrev o r = o := by rw [writeRecord, if_pos back, if_neg fits]
        rw [skipped] at below whole ⊢
        simp only [there, if_true]
        refine ⟨kept,part.trans (List.sublist_cons_self r _),rfl,rfl,below,fun room => ?_⟩
        simp only [sizeOf, List.map_cons, List.sum_cons] at room fits
        omega
    · have here : ToPrev getHour curHour fpPrev r = false := by simpa [ToPrev] using back
      have wrote : (writeRecord getHour curHour fpPrev o r).prev = o.prev ∧
          (writeRecord getHour curHour fpPrev o r).totalWrittenPrev = o.totalWrittenPrev := by
        rw [writeRecord, if_neg back]
        exact ⟨rfl,rfl⟩
      rw [wrote.2] at below whole ⊢
      rw [wrote.1]
      simp only [here, Bool.false_eq_true, if_false]
      exact ⟨kept,part,rfl,rfl,below,whole⟩

end Routing

section Hours
variable {fwrite : ℕ → ℕ → ℕ} {getHour : ℕ → Int} {curHour : Int} {nodes : Nodes} {rs : List (ℕ × Bytes)} {o o' : Output}

def precedingHour (curHour : Int) : Int := (curHour + 23) % 24

def OfHour (getHour : ℕ → Int) (hour : Int) (r : ℕ × Bytes) : Bool := getHour r.1 = hour

structure Routed (getHour : ℕ → Int) (curHour : Int) (rs : List (ℕ × Bytes)) (o o' : Output) : Prop where
  prev : o'.prev = o.prev ++ rs.filter (OfHour getHour (precedingHour curHour))
  curr : o'.curr = o.curr ++ rs.filter (fun r => ¬OfHour getHour (precedingHour curHour) r)
  totalPrev : o'.totalWrittenPrev = o.totalWrittenPrev + sizeOf (rs.filter (OfHour getHour (precedingHour curHour)))
  total : o'.totalWritten = o.totalWritten + sizeOf (rs.filter fun r => ¬OfHour getHour (precedingHour curHour) r)
  accumulated : o'.accumulatedWritten =
    o.accumulatedWritten + sizeOf (rs.filter fun r => ¬OfHour getHour (precedingHour curHour) r)

theorem prevHourWraps (day : 0 ≤ curHour ∧ curHour < 24) :
    (curHour ≠ 1 → prevHour curHour = precedingHour curHour) ∧
    (curHour = 1 → prevHour curHour = 23 ∧ precedingHour curHour = 0) := by
  unfold prevHour precedingHour
  split <;> omega

theorem toPrevOpen : ToPrev getHour curHour true = OfHour getHour (prevHour curHour) := by
  funext r
  simp [ToPrev, OfHour]

theorem writtenRouted (day : 0 ≤ curHour ∧ curHour < 24) (below : o.totalWrittenPrev < maxLogFileSize) :
    Routed getHour curHour rs o (rs.foldl (writeRecord getHour curHour true) o) ↔
      (curHour = 1 → ∀ r ∈ rs, getHour r.1 ≠ 0 ∧ getHour r.1 ≠ 23) ∧
      o.totalWrittenPrev + sizeOf (rs.filter (OfHour getHour (precedingHour curHour))) < maxLogFileSize := by
  obtain ⟨curr,total,accumulated⟩ := @currWritten getHour curHour true rs o
  obtain ⟨kept,part,prev,totalPrev,small,whole⟩ := @prevWritten getHour curHour true rs o
  rw [toPrevOpen] at curr total accumulated part whole
  obtain ⟨later,wraps⟩ := prevHourWraps day
  constructor
  · intro routed
    refine ⟨?_,?_⟩
    · intro one r mem
      obtain ⟨code,preceding⟩ := wraps one
      -- the records that stay with the current file are not the same ones
      have same := List.append_cancel_left (curr.symm.trans routed.curr)
      rw [code, preceding] at same
      have either := congrArg (fun l => r ∈ l) same
      simp only [List.mem_filter, mem, true_and, OfHour, decide_eq_true_eq, eq_iff_iff] at either
      omega
    · have same := List.append_cancel_left (prev.symm.trans routed.prev)
      rw [← same]
      exact small below
  · rintro ⟨clear,room⟩
    have same : rs.filter (OfHour getHour (prevHour curHour)) = rs.filter (OfHour getHour (precedingHour curHour)) ∧
        rs.filter (fun r => ¬OfHour getHour (prevHour curHour) r) =
          rs.filter (fun r => ¬OfHour getHour (precedingHour curHour) r) := by
      by_cases one : curHour = 1
      · obtain ⟨code,preceding⟩ := wraps one
        rw [code, preceding]
        constructor <;> refine List.filter_congr fun r mem => ?_
        all_goals simp [OfHour, clear one r mem]
      · rw [later one]
        exact ⟨rfl,rfl⟩
    rw [same.1] at whole
    have all := whole room
    rw [all] at prev totalPrev
    rw [same.2] at curr total accumulated
    exact ⟨prev,curr,totalPrev,total,accumulated⟩

theorem routedIff {cells : List ℕ} {head : Option ℕ} (succeeds : ∀ n len, fwrite n len = len)
    (day : 0 ≤ curHour ∧ curHour < 24) (linked : Linked (links nodes) head cells)
    (inside : ∀ a ∈ cells, a < logNodeCount) (below : o.totalWrittenPrev < maxLogFileSize) :
    Routed getHour curHour (records nodes cells) o
        (consumeAndWrite fwrite getHour curHour true nodes head true o).2 ↔
      (curHour = 1 → ∀ r ∈ records nodes cells, getHour r.1 ≠ 0 ∧ getHour r.1 ≠ 23) ∧
      o.totalWrittenPrev + sizeOf ((records nodes cells).filter (OfHour getHour (precedingHour curHour))) <
        maxLogFileSize := by
  rw [consumeWrites succeeds linked inside]
  exact writtenRouted day below

def stamped (hours : List ℕ) : Nodes where
  node := fun i => ⟨if i + 1 < hours.length then some (i + 1) else none,2,hours.getD i 0,
    [97,10] ++ List.replicate (logNodeDataMaxSize - 2) 0⟩
  full := fun _ => by
    rw [List.length_append, List.length_replicate]
    decide

def Output.empty : Output := ⟨0,[],[],0,0,0⟩

theorem fourFiveRouted : Routed (fun t => t) 5 (records (stamped [3,4,5,4]) [0,1,2,3]) .empty
    (consumeAndWrite (fun _ len => len) (fun t => t) 5 true (stamped [3,4,5,4]) (some 0) true .empty).2 := by
  have read : records (stamped [3,4,5,4]) [0,1,2,3] = [(4,[97,10]),(5,[97,10]),(4,[97,10]),(3,[97,10])] := rfl
  have linked : Linked (links (stamped [3,4,5,4])) (some 0) [0,1,2,3] := ⟨rfl,rfl,rfl,rfl,rfl⟩
  exact (routedIff (fun _ _ => rfl) (by decide) linked (by decide) (by decide)).mpr ⟨by decide,by rw [read]; decide⟩

theorem midnightMisfiled : ¬∀ (fwrite : ℕ → ℕ → ℕ) (getHour : ℕ → Int) (curHour : Int) (nodes : Nodes)
    (cells : List ℕ) (head : Option ℕ) (o : Output), (∀ n len, fwrite n len = len) → 0 ≤ curHour ∧ curHour < 24 →
      Linked (links nodes) head cells → (∀ a ∈ cells, a < logNodeCount) → o.totalWrittenPrev < maxLogFileSize →
      Routed getHour curHour (records nodes cells) o
        (consumeAndWrite fwrite getHour curHour true nodes head true o).2 := by
  intro always
  have linked : Linked (links (stamped [0])) (some 0) [0] := ⟨rfl,rfl⟩
  have read : records (stamped [0]) [0] = [(0,[97,10])] := rfl
  have routed := always (fun _ len => len) (fun t => t) 1 (stamped [0]) [0] (some 0) .empty (fun _ _ => rfl) (by decide)
    linked (by decide) (by decide)
  have written := routed.prev
  rw [consumeWrites (fun _ _ => rfl) linked (by decide), read] at written
  exact absurd written (by decide)

end Hours

end Uco.LogFile
