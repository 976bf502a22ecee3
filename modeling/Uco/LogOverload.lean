import Uco.LogFile

/-! The two loops of consume_and_write over links as an overload leaves them: cycles and
shared tails are allowed, and nothing but the set of visited nodes ends a round early. -/
namespace Uco.LogOverload
open ShmLog (LogNode logNodeCount logNodeDataMaxSize)
open IndexedList
open LogFile

section Model

/- The loop of reverse_log_list by its rounds; none when more would be needed. -/
def reverseRounds (nodes : Nodes) (visited : Finset ℕ) (prevIdx currIdx : Option ℕ) : ℕ → Option (Nodes × Option ℕ)
  | 0 => none
  | n + 1 =>
    match currIdx with
    | none => some (nodes,prevIdx)
    | some curr =>
      if curr ∈ visited then some (nodes,prevIdx)
      else reverseRounds (nodes.setNext curr prevIdx) (insert curr visited) (some curr) (nodes.node curr).next n

variable (fwrite : ℕ → ℕ → ℕ) (getHour : ℕ → Int) (curHour : Int) (fpPrev : Bool)

/- `read n` is what the n-th round finds in the nodes; producers may write in between. -/
def writeRounds (read : ℕ → Nodes) (visited : Finset ℕ) (o : Output) (currIdx : Option ℕ) : ℕ → Option Output
  | 0 => none
  | n + 1 =>
    match currIdx with
    | none => some o
    | some curr =>
      if curr ∈ visited then some o
      else writeRounds (fun k => read (k + 1)) (insert curr visited)
        (writeNode fwrite getHour curHour fpPrev o ((read 0).node curr)) ((read 0).node curr).next n

def consumeRounds (nodes : Nodes) (headIdx : Option ℕ) (fp : Bool) (o : Output) (n : ℕ) : Option (Nodes × Output) :=
  if headIdx = none ∨ fp = false then some (nodes,o)
  else do
    let (nodes,first) ← reverseRounds nodes ∅ none headIdx n
    let o ← writeRounds fwrite getHour curHour fpPrev (fun _ => nodes) ∅ o first n
    some (nodes,o)

end Model

section Rounds
variable {nodes : Nodes} {visited : Finset ℕ} {n : ℕ}

def ValidLink (link : Option ℕ) : Prop := ∀ i, link = some i → i < logNodeCount

def Valid (nodes : Nodes) : Prop := ∀ i, i < logNodeCount → ValidLink (links nodes i)

theorem validNone : ValidLink none := fun _ here => nomatch here

theorem setNextValid {i : ℕ} {next : Option ℕ} (valid : Valid nodes) (link : ValidLink next) :
    Valid (nodes.setNext i next) := by
  intro k inside
  rw [setNextLinks]
  by_cases here : k = i
  · rw [here, Function.update_self]
    exact link
  · rw [Function.update_of_ne here]
    exact valid k inside

theorem unvisitedShrinks {a : ℕ} (new : a ∉ visited) (inside : a < logNodeCount)
    (enough : (Finset.range logNodeCount \ visited).card < n + 1) :
    (Finset.range logNodeCount \ insert a visited).card < n :=
  lt_of_lt_of_le (visitedShrinks new (Finset.mem_range.mpr inside)) (Nat.le_of_lt_succ enough)

theorem reverseEnds {prev curr : Option ℕ} (valid : Valid nodes) (back : ValidLink prev) (ahead : ValidLink curr)
    (enough : (Finset.range logNodeCount \ visited).card < n) :
    reverseRounds nodes visited prev curr n = some (reverseLogList nodes visited prev curr) := by
  induction n generalizing nodes visited prev curr with
  | zero => exact absurd enough (Nat.not_lt_zero _)
  | succ n ih =>
    cases curr with
    | none => rw [reverseRounds, reverseLogList]
    | some a =>
      have inside := ahead a rfl
      by_cases seen : a ∈ visited
      · simp only [reverseRounds, if_pos seen]
        rw [reverseLogList, dif_pos seen]
      · simp only [reverseRounds, if_neg seen]
        rw [reverseLogList, dif_neg seen, dif_pos inside]
        exact ih (setNextValid valid back) (fun i here => Option.some.inj here ▸ inside) (valid a inside)
          (unvisitedShrinks seen inside enough)

section Writes
variable {fwrite : ℕ → ℕ → ℕ} {getHour : ℕ → Int} {curHour : Int} {fpPrev : Bool}

theorem writeEnds {curr : Option ℕ} {o : Output} (valid : Valid nodes) (ahead : ValidLink curr)
    (enough : (Finset.range logNodeCount \ visited).card < n) :
    writeRounds fwrite getHour curHour fpPrev (fun _ => nodes) visited o curr n =
      some (writeLogList fwrite getHour curHour fpPrev nodes visited o curr) := by
  induction n generalizing visited curr o with
  | zero => exact absurd enough (Nat.not_lt_zero _)
  | succ n ih =>
    cases curr with
    | none => rw [writeRounds, writeLogList]
    | some a =>
      have inside := ahead a rfl
      by_cases seen : a ∈ visited
      · simp only [writeRounds, if_pos seen]
        rw [writeLogList, dif_pos seen]
      · simp only [writeRounds, if_neg seen]
        rw [writeLogList, dif_neg seen, dif_pos inside]
        exact ih (valid a inside) (unvisitedShrinks seen inside enough)

theorem racingWriteEnds {read : ℕ → Nodes} {curr : Option ℕ} {o : Output} (valid : ∀ k, Valid (read k))
    (ahead : ValidLink curr) (enough : (Finset.range logNodeCount \ visited).card < n) :
    ∃ o', writeRounds fwrite getHour curHour fpPrev read visited o curr n = some o' := by
  induction n generalizing read visited curr o with
  | zero => exact absurd enough (Nat.not_lt_zero _)
  | succ n ih =>
    cases curr with
    | none => exact ⟨o,rfl⟩
    | some a =>
      have inside := ahead a rfl
      by_cases seen : a ∈ visited
      · exact ⟨o,by simp only [writeRounds, if_pos seen]⟩
      · simp only [writeRounds, if_neg seen]
        exact ih (fun k => valid (k + 1)) (valid 0 a inside) (unvisitedShrinks seen inside enough)

end Writes

end Rounds

section Overload
variable {nodes : Nodes} {head : Option ℕ}

/- `path` lists the nodes reachable from the head by their first visit, and the result is the
chain of just these nodes backwards. -/
structure Reversed (nodes : Nodes) (head : Option ℕ) (path : List ℕ) (nodes' : Nodes) (first : Option ℕ) : Prop where
  once : path.Nodup
  reachable : ∀ a, a ∈ path ↔ Reaches (links nodes) head a
  order : ∀ i < path.length, path[i]? = after (links nodes) head i
  chain : Linked (links nodes') first path.reverse
  fields : ∀ k, nodes'.node k = {nodes.node k with next := links nodes' k}
  others : ∀ k ∉ path, nodes'.node k = nodes.node k

theorem walkNodes (valid : Valid nodes) (start : ValidLink head) :
    ∃ path tail, Walk (links nodes) head path tail ∧ ∀ a ∈ path, a < logNodeCount := by
  have closed : ∀ a ∈ Finset.range logNodeCount, ∀ b, links nodes a = some b → b ∈ Finset.range logNodeCount :=
    fun a mem b link => Finset.mem_range.mpr (valid a (Finset.mem_range.mp mem) b link)
  obtain ⟨path,tail,walk,inside⟩ := walkExists closed fun a here => Finset.mem_range.mpr (start a here)
  exact ⟨path,tail,walk,fun a mem => Finset.mem_range.mp (inside a mem)⟩

theorem walkReversed {path : List ℕ} {tail : Option ℕ} (walk : Walk (links nodes) head path tail)
    (inside : ∀ a ∈ path, a < logNodeCount) :
    ∃ nodes' first, reverseLogList nodes ∅ none head = (nodes',first) ∧ Reversed nodes head path nodes' first := by
  obtain ⟨nodes',first,result,linked,fields,others⟩ := reverseWalks walk inside
  exact ⟨nodes',first,result,walk.once,walkReaches walk,fun i less => leadsAfter walk.leads less,linked,fields,others⟩

theorem reversedValid {path : List ℕ} {nodes' : Nodes} {first : Option ℕ} (valid : Valid nodes)
    (inside : ∀ a ∈ path, a < logNodeCount) (reversed : Reversed nodes head path nodes' first) :
    Valid nodes' ∧ ValidLink first := by
  have leads := linkedLeads.mp reversed.chain
  constructor
  · intro k less j link
    by_cases mem : k ∈ path
    · have next := (leadsNext leads (List.mem_reverse.mpr mem) link).resolve_right nofun
      exact inside j (List.mem_reverse.mp next)
    · rw [links, reversed.others k mem] at link
      exact valid k less j link
  · intro i here
    exact inside i (List.mem_reverse.mp ((leadsHead leads here).resolve_right nofun))

variable {fwrite : ℕ → ℕ → ℕ} {getHour : ℕ → Int} {curHour : Int} {fpPrev : Bool}

theorem unvisitedAll : (Finset.range logNodeCount \ ∅).card = logNodeCount := by
  rw [Finset.sdiff_empty, Finset.card_range]

theorem consumeEnds {path : List ℕ} {nodes' : Nodes} {first : Option ℕ} {n : ℕ} (valid : Valid nodes)
    (start : ValidLink head) (inside : ∀ a ∈ path, a < logNodeCount) (reversed : Reversed nodes head path nodes' first)
    (result : reverseLogList nodes ∅ none head = (nodes',first)) (more : logNodeCount < n) (fp : Bool) (o : Output) :
    consumeRounds fwrite getHour curHour fpPrev nodes head fp o n =
      some (consumeAndWrite fwrite getHour curHour fpPrev nodes head fp o) := by
  have enough : (Finset.range logNodeCount \ ∅).card < n := unvisitedAll.trans_lt more
  obtain ⟨valid',start'⟩ := reversedValid valid inside reversed
  rw [consumeRounds, consumeAndWrite]
  split
  · rfl
  · rw [reverseEnds valid validNone start enough, result]
    simp only [bind, Option.bind, writeEnds valid' start' enough]

theorem overloadReversed (valid : Valid nodes) (start : ValidLink head) : ∃ path nodes' first,
    Reversed nodes head path nodes' first ∧ ∀ n, logNodeCount < n →
      reverseRounds nodes ∅ none head n = some (nodes',first) ∧
      (∀ fwrite getHour curHour fpPrev fp o, consumeRounds fwrite getHour curHour fpPrev nodes head fp o n = some
        (if fp then (nodes',path.reverse.foldl (fun o i => writeNode fwrite getHour curHour fpPrev o (nodes.node i)) o)
          else (nodes,o))) ∧
      ∀ fwrite getHour curHour fpPrev read curr o, (∀ k, Valid (read k)) → ValidLink curr →
        ∃ o', writeRounds fwrite getHour curHour fpPrev read ∅ o curr n = some o' := by
  obtain ⟨path,tail,walk,inside⟩ := walkNodes valid start
  obtain ⟨nodes',first,result,reversed⟩ := walkReversed walk inside
  refine ⟨path,nodes',first,reversed,fun n more => ?_⟩
  have enough : (Finset.range logNodeCount \ ∅).card < n := unvisitedAll.trans_lt more
  refine ⟨?_,fun fwrite getHour curHour fpPrev fp o => ?_,fun fwrite getHour curHour fpPrev read curr o valid ahead =>
    racingWriteEnds valid ahead enough⟩
  · rw [reverseEnds valid validNone start enough, result]
  · rw [consumeEnds valid start inside reversed result more]
    cases fp with
    | false => rw [consumeAndWrite, if_pos (.inr rfl), if_neg Bool.false_ne_true]
    | true => rw [consumeVisits walk inside, result, if_pos rfl]

def overrunNode (i : ℕ) : LogNode := ⟨if i = 1 then some 2 else some 1,0,0,List.replicate logNodeDataMaxSize 0⟩

theorem overrunFull (i : ℕ) : (overrunNode i).logData.length = logNodeDataMaxSize := List.length_replicate

def overrun : Nodes := ⟨overrunNode,overrunFull⟩

theorem overrunValid : Valid overrun := by
  intro i _ j link
  simp only [links, overrun, overrunNode] at link
  split at link <;> cases link <;> decide

theorem overrunReversed : ∃ path nodes' first,
    Reversed overrun (some 0) path nodes' first ∧ ∀ n, logNodeCount < n →
      reverseRounds overrun ∅ none (some 0) n = some (nodes',first) ∧
      (∀ fwrite getHour curHour fpPrev fp o, consumeRounds fwrite getHour curHour fpPrev overrun (some 0) fp o n = some
        (if fp then (nodes',path.reverse.foldl (fun o i => writeNode fwrite getHour curHour fpPrev o (overrun.node i)) o)
          else (overrun,o))) ∧
      ∀ fwrite getHour curHour fpPrev read curr o, (∀ k, Valid (read k)) → ValidLink curr →
        ∃ o', writeRounds fwrite getHour curHour fpPrev read ∅ o curr n = some o' :=
  overloadReversed overrunValid (fun i here => Option.some.inj here ▸ (by decide))

end Overload

end Uco.LogOverload
