import Uco.LogFile
import Uco.Segments
import Mathlib.Data.List.Induction

/-! Log messages from ulog_push to the lines of the file. The line feed is appended before the
text is cut to the size of a node. -/
namespace Uco.LogLines
open ShmLog (LogNode logNodeCount logNodeDataMaxSize)
open IndexedList LogFile Segments

section Model

def lineFeed : UInt8 := 10

structure LogShm where
  currentIndex : ℕ
  top : Option ℕ
  nodes : Nodes

def setNode (nodes : Nodes) (i : ℕ) (node : LogNode) (full : node.logData.length = logNodeDataMaxSize) : Nodes where
  node := Function.update nodes.node i node
  full := by
    intro k
    by_cases here : k = i
    · subst here
      rwa [Function.update_self]
    · rw [Function.update_of_ne here]
      exact nodes.full k

def logShmAllocNode (shm : LogShm) : LogShm × ℕ :=
  let slot := shm.currentIndex % logNodeCount
  ({shm with currentIndex := (shm.currentIndex + 1) % 2 ^ 64, nodes := shm.nodes.setNext slot none},slot)

def setTimestamp (nodes : Nodes) (slot : ℕ) (timestamp : ℕ) : Nodes :=
  setNode nodes slot {nodes.node slot with timestamp := timestamp} (nodes.full slot)

def logShmWriteNode (nodes : Nodes) (slot : ℕ) (logData : Bytes) (logLen : ℕ) : Nodes :=
  let len := min logLen logNodeDataMaxSize
  let copied := logData.take len
  setNode nodes slot
    {nodes.node slot with logLen := len, logData := copied ++ (nodes.node slot).logData.drop copied.length} (by
      rw [List.length_append, List.length_drop, nodes.full, List.length_take]
      omega)

def logShmPushNode (shm : LogShm) (slot : ℕ) : LogShm :=
  {shm with top := some slot, nodes := shm.nodes.setNext slot shm.top}

def ulogPush (shm : LogShm) (timestamp : ℕ) (log : Bytes) : LogShm :=
  if log = [] then shm
  else
    let log := log ++ [lineFeed]
    let logLen := min log.length logNodeDataMaxSize
    let (shm,slot) := logShmAllocNode shm
    let nodes := setTimestamp shm.nodes slot timestamp
    let nodes := logShmWriteNode nodes slot log logLen
    logShmPushNode {shm with nodes := nodes} slot

structure Log where
  shm : LogShm
  out : Output

inductive Op where
  | push (timestamp : ℕ) (log : Bytes)
  | drain
  deriving DecidableEq, Repr

variable (fwrite : ℕ → ℕ → ℕ) (getHour : ℕ → Int) (curHour : Int) (fpPrev : Bool)

def Log.step (l : Log) : Op → Log
  | .push timestamp log => {l with shm := ulogPush l.shm timestamp log}
  | .drain =>
    let (nodes,out) := consumeAndWrite fwrite getHour curHour fpPrev l.shm.nodes l.shm.top true l.out
    ⟨{l.shm with top := none, nodes := nodes},out⟩

def Log.start : Log :=
  ⟨⟨0,none,⟨fun _ => ⟨some 0,0,0,List.replicate logNodeDataMaxSize 0⟩,fun _ => List.length_replicate⟩⟩,⟨0,[],[],0,0,0⟩⟩

def run (ops : List Op) : Log := ops.foldl (Log.step fwrite getHour curHour fpPrev) .start

def file (l : Log) : Bytes := l.out.curr.flatMap Prod.snd

end Model

section Purpose

def cut (log : Bytes) : Bytes := (log ++ [lineFeed]).take logNodeDataMaxSize

def pushed (ops : List Op) : List (ℕ × Bytes) := ops.filterMap fun
  | .push timestamp log => if log = [] then none else some (timestamp,log)
  | .drain => none

def messages (getHour : ℕ → Int) (curHour : Int) (fpPrev : Bool) (ops : List Op) : List Bytes :=
  ((pushed ops).filter fun r => ¬ToPrev getHour curHour fpPrev r).map Prod.snd

def sinceDrain (ops : List Op) : ℕ := (ops.reverse.takeWhile (· ≠ .drain)).length

def NoOverrun (ops : List Op) : Prop := ∀ front, front <+: ops → sinceDrain front ≤ logNodeCount

def Clean (ops : List Op) : Prop := ∀ timestamp log, .push timestamp log ∈ ops → log ≠ [] ∧ lineFeed ∉ log

def OneLineEach (logs : List Bytes) (text : Bytes) : Prop :=
  List.Forall₂ (fun log line => line = log ∨ logNodeDataMaxSize < log.length + 1 ∧ line <+: log) logs
    (segments lineFeed text)

end Purpose

section Pushing
variable {shm : LogShm} {timestamp : ℕ} {log : Bytes}

theorem setNodeOther {nodes : Nodes} {i k : ℕ} (other : k ≠ i) (node : LogNode)
    (full : node.logData.length = logNodeDataMaxSize) : (setNode nodes i node full).node k = nodes.node k :=
  Function.update_of_ne other ..

theorem setNextOther {nodes : Nodes} {i k : ℕ} (other : k ≠ i) (next : Option ℕ) :
    (nodes.setNext i next).node k = nodes.node k :=
  Function.update_of_ne other ..

theorem pushOther (some' : log ≠ []) {k : ℕ} (other : k ≠ shm.currentIndex % logNodeCount) :
    (ulogPush shm timestamp log).nodes.node k = shm.nodes.node k := by
  rw [ulogPush, if_neg some']
  simp only [logShmPushNode, logShmWriteNode, setTimestamp, logShmAllocNode]
  rw [setNextOther other, setNodeOther other, setNodeOther other, setNextOther other]

theorem pushFields (some' : log ≠ []) : (ulogPush shm timestamp log).top = some (shm.currentIndex % logNodeCount) ∧
    (ulogPush shm timestamp log).currentIndex = (shm.currentIndex + 1) % 2 ^ 64 := by
  rw [ulogPush, if_neg some']
  exact ⟨rfl,rfl⟩

theorem pushOwn (some' : log ≠ []) :
    links (ulogPush shm timestamp log).nodes (shm.currentIndex % logNodeCount) = shm.top ∧
    content ((ulogPush shm timestamp log).nodes.node (shm.currentIndex % logNodeCount)) = (timestamp,cut log) := by
  rw [ulogPush, if_neg some']
  simp only [logShmPushNode, logShmWriteNode, setTimestamp, logShmAllocNode]
  rw [setNextContent]
  constructor
  · simp [links, Nodes.setNext]
  · simp only [content, setNode, Function.update_self, cut]
    congr 1
    rw [List.take_append_of_le_length (by rw [List.length_take]; omega), List.take_take,
      List.take_eq_take_iff]
    omega

end Pushing

section Ring
variable {fwrite : ℕ → ℕ → ℕ} {getHour : ℕ → Int} {curHour : Int} {fpPrev : Bool} {shm : LogShm}
  {rs : List (ℕ × Bytes)}

def Waiting (shm : LogShm) (rs : List (ℕ × Bytes)) : Prop := ∃ cells, Linked (links shm.nodes) shm.top cells ∧
  records shm.nodes cells = rs ∧
  ∀ a ∈ cells, ∃ j < cells.length, a = (shm.currentIndex + (logNodeCount - 1 - j)) % logNodeCount

theorem recordsLength {nodes : Nodes} {cells : List ℕ} : (records nodes cells).length = cells.length := by
  simp [records]

theorem nextSlot (index j : ℕ) (less : j < logNodeCount - 1) :
    (index + (logNodeCount - 1 - j)) % logNodeCount =
      ((index + 1) % 2 ^ 64 + (logNodeCount - 1 - (j + 1))) % logNodeCount := by
  have count : logNodeCount = 131072 := by decide
  have wrapped : ∀ k, ((index + 1) % 2 ^ 64 + k) % 131072 = (index + 1 + k) % 131072 := by
    intro k
    rw [Nat.add_mod, Nat.mod_mod_of_dvd _ (by decide : 131072 ∣ 2 ^ 64), ← Nat.add_mod]
  rw [count] at less ⊢
  rw [wrapped]
  omega

theorem pushWaiting {timestamp : ℕ} {log : Bytes} (some' : log ≠ []) (waiting : Waiting shm rs)
    (room : rs.length < logNodeCount) : Waiting (ulogPush shm timestamp log) (rs ++ [(timestamp,cut log)]) := by
  obtain ⟨cells,linked,held,near⟩ := waiting
  have length : cells.length = rs.length := by rw [← held, recordsLength]
  obtain ⟨top,index⟩ := @pushFields shm timestamp log some'
  obtain ⟨link,own⟩ := @pushOwn shm timestamp log some'
  have count : logNodeCount = 131072 := by decide
  have fresh : ∀ a ∈ cells, a ≠ shm.currentIndex % logNodeCount := by
    intro a mem same
    obtain ⟨j,less,at'⟩ := near a mem
    rw [same, count] at at'
    rw [length] at less
    rw [count] at room
    omega
  refine ⟨shm.currentIndex % logNodeCount :: cells,?_,?_,?_⟩
  · rw [top]
    refine linkedPush (linkedKept linked fun a mem => ?_) link
    rw [links, pushOther some' (fresh a mem), links]
  · rw [records, List.reverse_cons, List.map_append, List.map_singleton, own, ← held, records]
    congr 1
    refine List.map_congr_left fun a mem => ?_
    rw [pushOther some' (fresh a (List.mem_reverse.mp mem))]
  · rw [index, List.length_cons]
    refine List.forall_mem_cons.mpr ⟨⟨0,by omega,?_⟩,fun a mem => ?_⟩
    · rw [count]
      omega
    · obtain ⟨j,less,at'⟩ := near a mem
      refine ⟨j + 1,by omega,?_⟩
      rw [at']
      exact nextSlot _ _ (by omega)

theorem waitingInside {cells : List ℕ} (near : ∀ a ∈ cells, ∃ j < cells.length,
    a = (shm.currentIndex + (logNodeCount - 1 - j)) % logNodeCount) : ∀ a ∈ cells, a < logNodeCount := by
  intro a mem
  obtain ⟨j,_,rfl⟩ := near a mem
  exact Nat.mod_lt _ (by decide)

structure Holds (getHour : ℕ → Int) (curHour : Int) (fpPrev : Bool) (ops : List Op) (l : Log)
    (written pending : List (ℕ × Bytes)) : Prop where
  out : l.out = written.foldl (writeRecord getHour curHour fpPrev) Log.start.out
  waiting : Waiting l.shm pending
  order : written ++ pending = (pushed ops).map fun r => (r.1,cut r.2)
  few : pending.length = sinceDrain ops

theorem sincePush (ops : List Op) (timestamp : ℕ) (log : Bytes) :
    sinceDrain (ops ++ [Op.push timestamp log]) = sinceDrain ops + 1 := by
  simp [sinceDrain]

theorem sinceDrained (ops : List Op) : sinceDrain (ops ++ [Op.drain]) = 0 := by
  simp [sinceDrain]

theorem drainHolds {ops : List Op} {l : Log} {written pending : List (ℕ × Bytes)}
    (succeeds : ∀ n len, fwrite n len = len) (holds : Holds getHour curHour fpPrev ops l written pending) :
    Holds getHour curHour fpPrev (ops ++ [Op.drain]) (l.step fwrite getHour curHour fpPrev Op.drain)
      (written ++ pending) [] := by
  obtain ⟨cells,linked,held,near⟩ := holds.waiting
  have wrote := @consumeWrites fwrite getHour curHour fpPrev _ _ _ succeeds linked (waitingInside near) l.out
  refine ⟨?_,⟨[],rfl,rfl,fun a mem => absurd mem List.not_mem_nil⟩,?_,by rw [sinceDrained]; rfl⟩
  · rw [Log.step]
    simp only
    rw [wrote, held, List.foldl_append, ← holds.out]
  · rw [List.append_nil, holds.order, pushed, pushed, List.filterMap_append]
    simp

theorem pushHolds {ops : List Op} {l : Log} {written pending : List (ℕ × Bytes)} {timestamp : ℕ} {log : Bytes}
    (some' : log ≠ []) (room : sinceDrain ops < logNodeCount)
    (holds : Holds getHour curHour fpPrev ops l written pending) :
    Holds getHour curHour fpPrev (ops ++ [Op.push timestamp log])
      (l.step fwrite getHour curHour fpPrev (.push timestamp log)) written (pending ++ [(timestamp,cut log)]) := by
  refine ⟨holds.out,pushWaiting some' holds.waiting (holds.few ▸ room),?_,?_⟩
  · rw [← List.append_assoc, holds.order, pushed, pushed, List.filterMap_append, List.map_append]
    simp [some']
  · rw [sincePush, List.length_append, holds.few]
    rfl

theorem runSnoc (ops : List Op) (op : Op) : run fwrite getHour curHour fpPrev (ops ++ [op]) =
    (run fwrite getHour curHour fpPrev ops).step fwrite getHour curHour fpPrev op := by
  rw [run, List.foldl_append, ← run]
  rfl

theorem runHolds {ops : List Op} (succeeds : ∀ n len, fwrite n len = len) (clean : Clean ops) (room : NoOverrun ops) :
    ∃ written pending, Holds getHour curHour fpPrev ops (run fwrite getHour curHour fpPrev ops) written pending := by
  induction ops using List.reverseRecOn with
  | nil => exact ⟨[],[],rfl,⟨[],rfl,rfl,fun a mem => absurd mem List.not_mem_nil⟩,rfl,rfl⟩
  | append_singleton ops op ih =>
    obtain ⟨written,pending,holds⟩ := ih (fun timestamp log mem => clean timestamp log (List.mem_append_left _ mem))
      (fun front part => room front (part.trans (List.prefix_append ops [op])))
    rw [runSnoc]
    cases op with
    | push timestamp log =>
      have now := room _ (List.prefix_refl _)
      rw [sincePush] at now
      exact ⟨_,_,pushHolds (clean timestamp log (by simp)).1 now holds⟩
    | drain => exact ⟨_,_,drainHolds succeeds holds⟩

theorem fileHolds {ops : List Op} (succeeds : ∀ n len, fwrite n len = len) (clean : Clean ops) (room : NoOverrun ops) :
    file (run fwrite getHour curHour fpPrev (ops ++ [Op.drain])) =
      (messages getHour curHour fpPrev ops).flatMap cut := by
  obtain ⟨written,pending,holds⟩ := @runHolds fwrite getHour curHour fpPrev ops succeeds clean room
  rw [runSnoc]
  have drained := drainHolds succeeds holds
  rw [file, drained.out, currWritten.1, holds.order]
  have start : (Log.start).out.curr = [] := rfl
  rw [start, List.nil_append, List.filter_map, List.flatMap_map, messages, List.flatMap_map]
  rfl

end Ring

section Lines

theorem cutShort {log : Bytes} (short : log.length < logNodeDataMaxSize) : cut log = log ++ [lineFeed] := by
  rw [cut, List.take_of_length_le]
  rw [List.length_append, List.length_singleton]
  omega

theorem cutLong {log : Bytes} (long : ¬log.length < logNodeDataMaxSize) : cut log = log.take logNodeDataMaxSize := by
  rw [cut, List.take_append_of_le_length (by omega)]

theorem cutSome (log : Bytes) : cut log ≠ [] := by
  have size : 0 < logNodeDataMaxSize := by decide
  intro empty
  have length := congrArg List.length empty
  rw [cut, List.length_take, List.length_append, List.length_singleton, List.length_nil] at length
  omega

theorem cutPlain {log : Bytes} (plain : lineFeed ∉ log) (long : ¬log.length < logNodeDataMaxSize) :
    lineFeed ∉ cut log := by
  rw [cutLong long]
  exact fun mem => plain (List.mem_of_mem_take mem)

theorem dropLastCons {P : Bytes → Prop} (log : Bytes) (logs : List Bytes) :
    (∀ l ∈ (log :: logs).dropLast, P l) ↔ (logs ≠ [] → P log) ∧ ∀ l ∈ logs.dropLast, P l := by
  cases logs <;> simp

theorem lineCount {logs : List Bytes} (clean : ∀ log ∈ logs, lineFeed ∉ log) :
    (segments lineFeed (logs.flatMap cut)).length ≤ logs.length ∧
    ((segments lineFeed (logs.flatMap cut)).length = logs.length ↔
      ∀ log ∈ logs.dropLast, log.length < logNodeDataMaxSize) := by
  induction logs with
  | nil => simp
  | cons log logs ih =>
    obtain ⟨plain,tail⟩ := List.forall_mem_cons.mp clean
    obtain ⟨most,exact'⟩ := ih tail
    rw [dropLastCons, ← exact', List.flatMap_cons]
    by_cases short : log.length < logNodeDataMaxSize
    · rw [cutShort short, List.append_assoc, List.singleton_append, segmentsCons plain, List.length_cons,
        List.length_cons, Nat.add_right_cancel_iff]
      exact ⟨by omega,fun same => ⟨fun _ => short,same⟩,And.right⟩
    · have more : cut log ++ logs.flatMap cut ≠ [] := fun empty => cutSome log (List.append_eq_nil_iff.mp empty).1
      rw [segmentsBefore (cutPlain plain short) more]
      cases logs with
      | nil => simp [behind]
      | cons next logs =>
        have rest : (next :: logs).flatMap cut ≠ [] := by
          rw [List.flatMap_cons]
          exact fun empty => cutSome next (List.append_eq_nil_iff.mp empty).1
        have merged : (segments lineFeed ((next :: logs).flatMap cut)).length =
            (segments lineFeed (behind lineFeed ((next :: logs).flatMap cut))).length + 1 := by
          rw [segments, if_neg rest, List.length_cons]
        rw [List.length_cons, ← merged]
        exact ⟨most.trans (Nat.le_succ _),iff_of_false (by rw [List.length_cons]; omega) fun all =>
          short (all.1 (List.cons_ne_nil _ _))⟩

theorem linesOfShort {logs : List Bytes} (clean : ∀ log ∈ logs, lineFeed ∉ log)
    (short : ∀ log ∈ logs.dropLast, log.length < logNodeDataMaxSize) : OneLineEach logs (logs.flatMap cut) := by
  induction logs with
  | nil =>
    rw [OneLineEach, List.flatMap_nil, segmentsNil]
    exact .nil
  | cons log logs ih =>
    obtain ⟨plain,tail⟩ := List.forall_mem_cons.mp clean
    obtain ⟨here,later⟩ := (dropLastCons log logs).mp short
    rw [OneLineEach, List.flatMap_cons]
    by_cases fits : log.length < logNodeDataMaxSize
    · rw [cutShort fits, List.append_assoc, List.singleton_append, segmentsCons plain]
      exact .cons (.inl rfl) (ih tail later)
    · have last : logs = [] := by
        by_contra more
        exact fits (here more)
      subst last
      rw [List.flatMap_nil, List.append_nil, segmentsLast (cutPlain plain fits) (cutSome log), cutLong fits]
      exact .cons (.inr ⟨by omega,List.take_prefix _ _⟩) .nil

theorem oneLineIff {logs : List Bytes} (clean : ∀ log ∈ logs, lineFeed ∉ log) :
    OneLineEach logs (logs.flatMap cut) ↔ ∀ log ∈ logs.dropLast, log.length < logNodeDataMaxSize :=
  ⟨fun each => (lineCount clean).2.mp each.length_eq.symm,linesOfShort clean⟩

theorem messageClean {getHour : ℕ → Int} {curHour : Int} {fpPrev : Bool} {ops : List Op} (clean : Clean ops) :
    ∀ log ∈ messages getHour curHour fpPrev ops, lineFeed ∉ log := by
  intro log mem
  obtain ⟨⟨timestamp,_⟩,inside,rfl⟩ := List.mem_map.mp mem
  obtain ⟨op,held,same⟩ := List.mem_filterMap.mp (List.mem_of_mem_filter inside)
  cases op with
  | push t l =>
    simp only at same
    split at same
    · cases same
    · obtain ⟨-,same⟩ := Prod.mk.inj (Option.some.inj same)
      exact same ▸ (clean t l held).2
  | drain => cases same

theorem fewPushes {ops : List Op} (few : ops.length ≤ logNodeCount) : NoOverrun ops := by
  intro front part
  have fewer := (List.takeWhile_sublist (fun op : Op => decide (op ≠ .drain)) (l := front.reverse)).length_le
  rw [List.length_reverse] at fewer
  exact (fewer.trans part.length_le).trans few

theorem linesIff {fwrite : ℕ → ℕ → ℕ} {getHour : ℕ → Int} {curHour : Int} {fpPrev : Bool} {ops : List Op}
    (succeeds : ∀ n len, fwrite n len = len) (clean : Clean ops) (room : NoOverrun ops) :
    OneLineEach (messages getHour curHour fpPrev ops) (file (run fwrite getHour curHour fpPrev (ops ++ [Op.drain]))) ↔
      ∀ log ∈ (messages getHour curHour fpPrev ops).dropLast, log.length < logNodeDataMaxSize := by
  rw [fileHolds succeeds clean room]
  exact oneLineIff (messageClean clean)

theorem twoLines :
    OneLineEach (messages (fun _ => 0) 0 false [.push 0 [104,105],.drain,.push 0 [98]])
      (file (run (fun _ len => len) (fun _ => 0) 0 false ([Op.push 0 [104,105],Op.drain,Op.push 0 [98]] ++ [Op.drain]))) := by
  refine (linesIff (fun _ _ => rfl) ?_ (fewPushes (by decide))).mpr (by decide)
  rintro timestamp log mem
  obtain same | same := by simpa using mem
  all_goals
    obtain ⟨rfl,rfl⟩ := same
    decide

def fullMessage : Bytes := List.replicate logNodeDataMaxSize 97

theorem fullPlain : fullMessage ≠ [] ∧ lineFeed ∉ fullMessage := by
  refine ⟨List.ne_nil_of_length_pos (by rw [fullMessage, List.length_replicate]; decide),fun mem => ?_⟩
  exact absurd (List.eq_of_mem_replicate mem) (by decide)

theorem messagesMerged : Clean [.push 0 fullMessage,.push 0 [98]] ∧ NoOverrun [.push 0 fullMessage,.push 0 [98]] ∧
    ¬OneLineEach (messages (fun _ => 0) 0 false [.push 0 fullMessage,.push 0 [98]])
      (file (run (fun _ len => len) (fun _ => 0) 0 false ([Op.push 0 fullMessage,Op.push 0 [98]] ++ [Op.drain]))) := by
  have clean : Clean [.push 0 fullMessage,.push 0 [98]] := by
    rintro timestamp log mem
    obtain same | same := by simpa using mem
    all_goals obtain ⟨rfl,rfl⟩ := same
    · exact fullPlain
    · decide
  have room : NoOverrun [.push 0 fullMessage,.push 0 [98]] := fewPushes (by decide)
  refine ⟨clean,room,fun each => ?_⟩
  rw [fileHolds (fun _ _ => rfl) clean room, oneLineIff (messageClean clean)] at each
  have held : messages (fun _ => 0) 0 false [.push 0 fullMessage,.push 0 [98]] = [fullMessage,[98]] := by
    simp [messages, pushed, ToPrev, fullPlain.1]
  rw [held] at each
  have short := each fullMessage List.mem_cons_self
  rw [fullMessage, List.length_replicate] at short
  exact absurd short (Nat.lt_irrefl _)

end Lines

end Uco.LogLines
