import Uco.KeepAlive
import Mathlib.Data.List.TakeWhile

/-! What can stand in a parsed request: the scan for line ends resumes behind the bytes it has
seen, so that no line it gives out holds a line feed, however the bytes arrive. -/
namespace Uco.PlainRequest
open HttpRequest Fragmentation WholeRequest KeepAlive

section Purpose

structure OneLine (text : Bytes) : Prop where
  line : lineFeed ∉ text
  noNul : (0 : UInt8) ∉ text

structure PlainHead (h : RequestHead) : Prop where
  method : OneLine h.method
  path : OneLine h.path
  protocol : OneLine h.protocol
  contentType : OneLine h.contentType
  names : ∀ key ∈ h.mapHeader, OneLine key
  values : ∀ (key value : Bytes), h.mapHeader[key]? = some value → OneLine value

structure Scanned (unread : Bytes) (readOffset : Int) : Prop where
  near : readOffset.toNat ≤ unread.length
  clean : lineFeed ∉ unread.take readOffset.toNat

end Purpose

section Lines

theorem oneLineNil : OneLine [] := ⟨List.not_mem_nil,List.not_mem_nil⟩

theorem OneLine.sub {text part : Bytes} (whole : OneLine text) (sub : part.Sublist text) : OneLine part :=
  ⟨fun inside => whole.line (sub.subset inside),fun inside => whole.noNul (sub.subset inside)⟩

theorem OneLine.parts {text before after : Bytes} {c : UInt8} (whole : OneLine text)
    (split : splitAtByte c text = some (before,after)) : OneLine before ∧ OneLine after := by
  obtain ⟨rfl,-⟩ := splitParts split
  exact ⟨whole.sub (List.sublist_append_left ..),
    whole.sub ((List.sublist_cons_self c after).trans (List.sublist_append_right ..))⟩

theorem OneLine.trimmed {text : Bytes} (whole : OneLine text) : OneLine (trimRight text) := by
  rw [trimRight]
  split
  · exact whole
  · have sub := (List.dropWhile_sublist (l := text.reverse) fun c => decide (c = space)).reverse
    rw [List.reverse_reverse] at sub
    exact whole.sub sub

theorem plainFresh : PlainHead .fresh :=
  ⟨oneLineNil,oneLineNil,oneLineNil,oneLineNil,fun _ inside => absurd inside Std.ExtTreeMap.not_mem_empty,
    fun _ _ found => by simp [RequestHead.fresh] at found⟩

theorem plainRequestLine {h : RequestHead} {line : Bytes} (plain : PlainHead h) (whole : OneLine line) :
    PlainHead (parseRequestLine h line).2 := by
  unfold parseRequestLine
  split
  · exact plain
  · rename_i first
    obtain ⟨method,behind⟩ := whole.parts first
    split
    · exact ⟨method,plain.path,plain.protocol,plain.contentType,plain.names,plain.values⟩
    · rename_i second
      obtain ⟨path,protocol⟩ := behind.parts second
      simp only
      split
      · exact ⟨method,path,plain.protocol,plain.contentType,plain.names,plain.values⟩
      · exact ⟨method,path,protocol.sub (List.drop_sublist ..),plain.contentType,plain.names,plain.values⟩

theorem plainHeader {h h' : RequestHead} {line : Bytes} (plain : PlainHead h) (whole : OneLine line)
    (parsed : parseHeader h line = some h') : PlainHead h' := by
  rw [parseHeader] at parsed
  split at parsed
  · cases parsed
  · rename_i before after cut
    obtain ⟨name,value⟩ := whole.parts cut
    have key := name.trimmed
    have val := (value.sub (List.dropWhile_sublist fun c => decide (c = space))).trimmed
    cases parsed
    refine ⟨?_,?_,?_,?_,?_,?_⟩
    · split_ifs <;> exact plain.method
    · split_ifs <;> exact plain.path
    · split_ifs <;> exact plain.protocol
    · split_ifs <;> first | exact val | exact plain.contentType
    · intro k inside
      simp only [Std.ExtTreeMap.mem_insert, Std.LawfulEqCmp.compare_eq_iff_eq] at inside
      rcases inside with rfl | old
      · exact key
      · refine plain.names k ?_
        split_ifs at old <;> exact old
    · intro k v found
      rw [Std.ExtTreeMap.getElem?_insert] at found
      split at found
      · cases found
        exact val
      · refine plain.values k v ?_
        split_ifs at found <;> exact found

end Lines

section Scan
variable {r : Request}

theorem memCString {c : UInt8} {before after : Bytes} (inside : c ∈ cString (before ++ 0 :: after)) : c ∈ before := by
  rw [cStringStop] at inside
  have kept := List.mem_takeWhile_imp inside
  have whole := (List.takeWhile_sublist _).subset inside
  rcases List.mem_append.mp whole with early | last
  · exact early
  · rw [List.mem_singleton.mp last] at kept
    simp at kept

theorem noNulCString (text : Bytes) : (0 : UInt8) ∉ cString text := fun inside => by
  have kept := List.mem_takeWhile_imp inside
  simp at kept

theorem takeNext {text rest : Bytes} {pos : Nat} {c : UInt8} (same : c :: rest = text.drop pos) :
    text.take (pos + 1) = text.take pos ++ [c] ∧ rest = text.drop (pos + 1) := by
  constructor
  · rw [List.take_add, ← same]
    rfl
  · rw [← List.drop_drop, ← same]
    rfl

theorem scanFoundClean {text rest : Bytes} {pos crAt : Nat} (same : rest = text.drop pos)
    (clean : lineFeed ∉ text.take pos) (found : scanFrom text pos rest = .found crAt) : lineFeed ∉ text.take crAt := by
  induction rest generalizing pos with
  | nil => cases found
  | cons c rest ih =>
    obtain ⟨next,behind⟩ := takeNext same
    unfold scanFrom at found
    split at found
    · split at found
      · cases found
      · split at found
        · cases found
          exact clean
        · cases found
    · rename_i notCr
      split at found
      · split at found
        · cases found
          exact fun inside => clean ((List.take_subset_take_left text (Nat.sub_le pos 1)) inside)
        · cases found
      · rename_i notLf
        refine ih behind ?_ found
        rw [next, List.mem_append, List.mem_singleton, not_or]
        exact ⟨clean,fun same => notLf same.symm⟩

theorem scanOpenClean {text rest : Bytes} {pos : Nat} (same : rest = text.drop pos)
    (clean : lineFeed ∉ text.take pos) (open' : scanFrom text pos rest = .lineOpen) : lineFeed ∉ text := by
  induction rest generalizing pos with
  | nil =>
    have all : text.length ≤ pos := List.drop_eq_nil_iff.mp same.symm
    rwa [List.take_of_length_le all] at clean
  | cons c rest ih =>
    obtain ⟨next,behind⟩ := takeNext same
    unfold scanFrom at open'
    split at open'
    · rename_i isCr
      split at open'
      · have all : text.length ≤ pos + 1 := List.drop_eq_nil_iff.mp behind.symm
        rw [← List.take_of_length_le all, next, List.mem_append, List.mem_singleton, not_or]
        exact ⟨clean,by rw [isCr]; decide⟩
      · split at open' <;> cases open'
    · split at open'
      · split at open' <;> cases open'
      · rename_i notLf
        refine ih behind ?_ open'
        rw [next, List.mem_append, List.mem_singleton, not_or]
        exact ⟨clean,fun same => notLf same.symm⟩

theorem parseLineScanned (valid : Buffer.Valid r.buffer) (scanned : Scanned r.buffer.unread r.readOffset) :
    Scanned (parseLine r).2.buffer.unread (parseLine r).2.readOffset ∧ ((parseLine r).1 = .ok → OneLine (parseLine r).2.curLine) := by
  unfold parseLine
  split
  · rename_i crAt found
    refine ⟨⟨Nat.zero_le _,by simp⟩,fun _ => ⟨fun inside => ?_,noNulCString _⟩⟩
    obtain ⟨isCr,-⟩ := scanFromFound _ _ _ rfl found
    obtain ⟨inCr,-⟩ := List.getElem?_eq_some_iff.mp isCr
    have clean := scanFoundClean rfl scanned.clean found
    simp only [Buffer.pokeUnread] at inside
    have blanked : (r.buffer.unread.set crAt 0).set (crAt + 1) 0 = r.buffer.unread.take crAt ++
        0 :: ((r.buffer.unread.set crAt 0).set (crAt + 1) 0).drop (crAt + 1) := by
      have size : crAt < ((r.buffer.unread.set crAt 0).set (crAt + 1) 0).length := by simpa using inCr
      have here : ((r.buffer.unread.set crAt 0).set (crAt + 1) 0)[crAt] = 0 := by
        rw [List.getElem_set_ne (by omega), List.getElem_set_self]
      have front : ((r.buffer.unread.set crAt 0).set (crAt + 1) 0).take crAt = r.buffer.unread.take crAt := by
        rw [List.take_set_of_le (Nat.le_succ crAt), List.take_set_of_le (Nat.le_refl crAt)]
      have split := List.take_append_drop crAt ((r.buffer.unread.set crAt 0).set (crAt + 1) 0)
      rw [List.drop_eq_getElem_cons size, here, front] at split
      exact split.symm
    rw [blanked] at inside
    exact clean (memCString inside)
  · exact ⟨⟨Nat.zero_le _,by simp⟩,nofun⟩
  · rename_i open'
    have size := Buffer.unreadLength valid.placed
    refine ⟨⟨by simp [size],fun inside => ?_⟩,nofun⟩
    exact scanOpenClean rfl scanned.clean open' (List.mem_of_mem_take inside)

end Scan

section Runs

structure Safe (r : Request) : Prop where
  valid : Buffer.Valid r.buffer
  scanned : Scanned r.buffer.unread r.readOffset
  head : PlainHead r.toRequestHead

variable {r : Request}

theorem freshSafe : Safe .fresh :=
  ⟨Buffer.newValid (by decide),⟨Nat.zero_le _,by simp [Request.fresh]⟩,plainFresh⟩

theorem lineReadSafe (safe : Safe r) (line : OneLine r.curLine) : Safe (lineRead r).2 := by
  unfold lineRead
  split
  · split
    · rename_i parsed
      have plain := plainRequestLine safe.head line
      rw [parsed] at plain
      exact ⟨safe.valid,safe.scanned,plain⟩
    · rename_i parsed
      have plain := plainRequestLine safe.head line
      rw [parsed] at plain
      exact ⟨safe.valid,safe.scanned,plain⟩
  · split
    · split
      · rename_i parsed
        exact ⟨safe.valid,safe.scanned,plainHeader safe.head line parsed⟩
      · exact safe
    · exact ⟨safe.valid,safe.scanned,safe.head⟩
  · exact safe

theorem parseLineSafe (safe : Safe r) : Safe (parseLine r).2 := by
  have head : (parseLine r).2.toRequestHead = r.toRequestHead := by
    unfold parseLine
    split <;> rfl
  exact ⟨(parseLineValid safe.valid).1,(parseLineScanned safe.valid safe.scanned).1,head ▸ safe.head⟩

theorem parseBodySafe (safe : Safe r) : Safe (parseBody r).2 := by
  unfold parseBody
  split
  · exact ⟨safe.valid,safe.scanned,safe.head⟩
  · exact safe

theorem parseLoopSafe (safe : Safe r) : Safe (parseLoop r).2 := by
  induction r using parseLoop.induct with
  | case1 r body =>
    rw [parseLoopBody body]
    exact parseBodySafe safe
  | case2 r inHead r' read =>
    have step := parseLineSafe safe
    rw [read] at step
    rw [parseLoopOpen inHead read]
    exact step
  | case3 r inHead r' read =>
    have step := parseLineSafe safe
    rw [read] at step
    rw [parseLoopBad inHead read]
    exact step
  | case4 r inHead line read r' next =>
    have step := parseLineSafe safe
    have whole := (parseLineScanned safe.valid safe.scanned).2
    rw [read] at step whole
    have after := lineReadSafe step (whole rfl)
    rw [parseLoopLine inHead read]
    rw [next] at after ⊢
    exact after
  | case5 r inHead line read r' next ih =>
    have step := parseLineSafe safe
    have whole := (parseLineScanned safe.valid safe.scanned).2
    rw [read] at step whole
    have after := lineReadSafe step (whole rfl)
    rw [parseLoopLine inHead read]
    rw [next] at after ⊢
    exact ih after

theorem parseSafe (safe : Safe r) : Safe (parse r).2 := by
  rw [parse]
  split
  · exact parseLoopSafe ⟨safe.valid,safe.scanned,safe.head⟩
  · exact parseLoopSafe safe

theorem receiveSafe (safe : Safe r) {chunk : Bytes} (fits : r.buffer.unread.length + chunk.length ≤ int32Max) :
    Safe (receive r chunk) := by
  obtain ⟨valid,unread⟩ := receiveAppends safe.valid chunk fits
  refine ⟨valid,⟨?_,?_⟩,safe.head⟩
  · rw [unread, List.length_append]
    exact Nat.le_add_right_of_le safe.scanned.near
  · rw [unread]
    change lineFeed ∉ (r.buffer.unread ++ chunk).take r.readOffset.toNat
    rw [List.take_append_of_le_length safe.scanned.near]
    exact safe.scanned.clean

theorem resetSafe (safe : Safe r) (reads : Nat) : Safe (reset (retrieveBody^[reads] r)) := by
  have idle := resetIdle safe.valid reads
  exact ⟨idle.valid,⟨Nat.zero_le _,by simp [reset]⟩,plainFresh⟩

variable {keepAliveCount : Nat} {handle : Nat → Handling}

theorem turnsPlain {reqCount : Nat} {chunks : List Bytes} (safe : Safe r) (open' : r.state ≠ .finish)
    (fits : r.buffer.unread.length + chunks.flatten.length ≤ int32Max) :
    ∀ turn ∈ serveClient keepAliveCount handle reqCount r chunks, PlainHead turn.request.toRequestHead := by
  induction chunks generalizing r reqCount with
  | nil => simp [serveClient]
  | cons chunk rest ih =>
    simp only [List.flatten_cons, List.length_append] at fits
    have received : Safe (receive r chunk) := receiveSafe safe (by omega)
    obtain ⟨-,unread⟩ := receiveAppends safe.valid chunk (by omega)
    have looped := parseLooped (r := receive r chunk) received.valid open'
    have parsed := parseSafe received
    rw [serveClient]
    rcases result : parse (receive r chunk) with ⟨state,r'⟩
    rw [result] at looped parsed
    have size : r'.buffer.unread.length ≤ _ := looped.size
    rw [unread, List.length_append] at size
    cases state with
    | incomplete => exact ih parsed (looped.open' rfl) (by omega)
    | _ =>
      intro turn inside
      dsimp only at inside
      split at inside
      · rename_i next kept
        obtain ⟨-,same⟩ := Option.ite_none_right_eq_some.mp kept
        cases same
        rcases List.mem_cons.mp inside with rfl | later
        · exact parsed.head
        · have again := resetSafe parsed (handle reqCount).bodyReads
          refine ih again (by simp [reset]) ?_ turn later
          have empty := (resetIdle parsed.valid (handle reqCount).bodyReads).unread
          rw [empty, List.length_nil]
          omega
      · rw [List.mem_singleton.mp inside]
        exact parsed.head

/- However the bytes of a connection are cut into reads, no text of a request that is parsed from them
holds a line feed or a NUL. -/
theorem requestsPlain (keepAliveCount : Nat) (handle : Nat → Handling) {chunks : List Bytes}
    (small : chunks.flatten.length ≤ int32Max) :
    ∀ turn ∈ serveClient keepAliveCount handle 0 .fresh chunks, PlainHead turn.request.toRequestHead :=
  turnsPlain freshSafe (by decide) (by simpa [Request.fresh] using small)

theorem brokenLinePlain :
    ∃ turn ∈ serveClient 100 answers 0 .fresh [bytes "GET /a\x0d",bytes "/ HTTP/1.1\x0d\x0a\x0d\x0a"],
      turn.request.path = bytes "/a\x0d/" ∧ PlainHead turn.request.toRequestHead := by
  have served : bytes "/a\x0d/" ∈ (serveClient 100 answers 0 .fresh
      [bytes "GET /a\x0d",bytes "/ HTTP/1.1\x0d\x0a\x0d\x0a"]).map fun turn => turn.request.path := by decide +kernel
  obtain ⟨turn,inside,path⟩ := List.mem_map.mp served
  exact ⟨turn,inside,path,requestsPlain 100 answers (by decide) turn inside⟩

end Runs

end Uco.PlainRequest
