import MiniRedis.Linearization
import MiniRedis.Replies

/-!
# The requester

A call of `Requester::get` or `Requester::set` writes one command frame, reads one
response frame and interprets it. The calls of one requester follow each other,
because each of them borrows the requester exclusively.
-/
namespace MiniRedis

open Library

/-- A call of the API. Its arguments are in memory, and no allocation is longer
than `isize::MAX`. -/
inductive Call where
  | get (key : String) (hkey : (asBytes key).length ≤ isizeMax)
  | set (key : String) (value : Bytes) (hkey : (asBytes key).length ≤ isizeMax)
    (hvalue : value.length ≤ isizeMax)

/-- What a call returns: `Ok` of a GET, `Ok` of a SET, or the text of an error. -/
inductive CallResult where
  | value (bytes : Option Bytes)
  | done
  | error (text : String)
  | panicked
  deriving DecidableEq, Repr

namespace Call

/-- Step 1 of `get` and of `set`. -/
def commandFrame : Call → Frame
  | get key _ => .array [.bulk (asBytes "GET"), .bulk (asBytes key)]
  | set key value _ _ => .array [.bulk (asBytes "SET"), .bulk (asBytes key), .bulk value]

/-- The end of step 3, and step 4 of `get`. -/
def interpretGet : ReadResult → CallResult
  | .frame (.bulk bytes) => .value (some bytes)
  | .frame .null => .value none
  | .frame (.error string) => .error string
  | .frame _ => .error "Unexpected response frame type"
  | .eof => .error "Server closed its sending side before a response arrived"
  | .error e => .error e.display
  | .panic => .panicked

/-- The end of step 3, and step 4 of `set`. -/
def interpretSet : ReadResult → CallResult
  | .frame (.simple string) => if string = "OK" then .done else .error string
  | .frame (.error string) => .error string
  | .frame _ => .error "Unexpected response frame type"
  | .eof => .error "Server closed its sending side before a response arrived"
  | .error e => .error e.display
  | .panic => .panicked

def interpret : Call → ReadResult → CallResult
  | get _ _ => interpretGet
  | set _ _ _ _ => interpretSet

/-- The command that the call asks for. -/
def command : Call → Command
  | get key _ => .get ⟨key⟩
  | set key value _ _ => .set ⟨key, value⟩

/-- The request fits in the buffer of the server. -/
def Fits (call : Call) : Prop := (encode call.commandFrame).length ≤ maxBufferedBytes

instance (call : Call) : Decidable call.Fits :=
  inferInstanceAs (Decidable ((encode call.commandFrame).length ≤ maxBufferedBytes))

/-! ### Requests and commands -/

theorem commandFrame_readable (call : Call) : Readable call.commandFrame := by
  intro node hnode
  cases call with
  | get key hkey =>
    simp only [commandFrame, Frame.nodes, Frame.nodesAll, List.cons_append, List.nil_append,
      List.mem_cons, List.not_mem_nil, or_false] at hnode
    rcases hnode with rfl | rfl | rfl
    · exact show 2 < arrayLengthLimitExclusive.toNatClampNeg by decide
    · have hname : (asBytes "GET").length = 3 := by decide
      simp [ReadableNode, hname, isizeMax]
    · exact hkey
  | set key value hkey hvalue =>
    simp only [commandFrame, Frame.nodes, Frame.nodesAll, List.cons_append, List.nil_append,
      List.mem_cons, List.not_mem_nil, or_false] at hnode
    rcases hnode with rfl | rfl | rfl | rfl
    · exact show 3 < arrayLengthLimitExclusive.toNatClampNeg by decide
    · have hname : (asBytes "SET").length = 3 := by decide
      simp [ReadableNode, hname, isizeMax]
    · exact hkey
    · exact hvalue

theorem depth_commandFrame (call : Call) : call.commandFrame.depth ≤ maxArrayDepth := by
  cases call <;> simp [commandFrame, Frame.depth, Frame.depthAll, maxArrayDepth]

theorem Fits.deliverable {call : Call} (h : call.Fits) : Deliverable call.commandFrame :=
  ⟨call.commandFrame_readable, call.depth_commandFrame, h⟩

/-- The server parses the command that the call asks for. -/
theorem fromFrame_commandFrame (call : Call) :
    Command.fromFrame call.commandFrame = .ok call.command := by
  cases call with
  | get key hkey =>
    exact Command.fromFrame_eq_ok_iff.mpr
      ⟨"GET", .bulk (asBytes "GET"), [.bulk (asBytes key)], rfl, rfl, by decide, _, rfl, rfl⟩
  | set key value hkey hvalue =>
    exact Command.fromFrame_eq_ok_iff.mpr
      ⟨"SET", .bulk (asBytes "SET"), [.bulk (asBytes key), .bulk value], rfl, rfl, by decide, _, _,
        rfl, rfl, rfl⟩

theorem command_injective {call call' : Call} (h : call.command = call'.command) :
    call = call' := by
  cases call <;> cases call' <;> cases h <;> rfl

section fits

variable {key : String} {value : Bytes} {hkey : (asBytes key).length ≤ isizeMax}
  {hvalue : value.length ≤ isizeMax}

theorem length_encode_get : (encode (get key hkey).commandFrame).length =
    13 + (encode (.bulk (asBytes key))).length := by
  have htwo : (asBytes (toString 2)).length = 1 := by decide
  have hthree : (asBytes (toString 3)).length = 1 := by decide
  have hget : (asBytes "GET").length = 3 := by decide
  simp only [commandFrame, encode, encodeAll, List.length_cons, List.length_append,
    List.length_nil, htwo, hthree, hget]
  omega

theorem length_encode_set : (encode (set key value hkey hvalue).commandFrame).length =
    13 + (encode (.bulk (asBytes key))).length + (encode (.bulk value)).length := by
  have hthree : (asBytes (toString 3)).length = 1 := by decide
  have hset : (asBytes "SET").length = 3 := by decide
  simp only [commandFrame, encode, encodeAll, List.length_cons, List.length_append,
    List.length_nil, hthree, hset]
  omega

theorem fits_set (h : (asBytes key).length + value.length + 33 ≤ maxBufferedBytes) :
    (set key value hkey hvalue).Fits := by
  have hkeyBytes : (encode (.bulk (asBytes key))).length ≤ (asBytes key).length + 10 :=
    length_encode_bulk (by omega)
  have hvalueBytes : (encode (.bulk value)).length ≤ value.length + 10 :=
    length_encode_bulk (by omega)
  rw [Fits, length_encode_set]
  omega

/-- A SET within the limit leaves room for the GET of its key, and for the reply. -/
theorem fits_get_of_set (h : (set key value hkey hvalue).Fits) :
    (get key hkey).Fits ∧ (encode (.bulk value)).length ≤ maxBufferedBytes := by
  rw [Fits, length_encode_set] at h
  rw [Fits, length_encode_get]
  omega

end fits

end Call

/-! ### The map that the calls are meant to be -/

/-- A call on the map itself. -/
def Call.answer (call : Call) (database : Database) : CallResult × Database :=
  match call with
  | .get key _ => (.value (database.get key), database)
  | .set key value _ _ => (.done, database.set key value)

namespace Call

/-- The map that the calls leave. -/
def stored (calls : List Call) : Database := (replay answer .new calls).2

/-- Each call with its answer. -/
def answered (calls : List Call) : List (Call × CallResult) :=
  calls.zip (replay answer .new calls).1

theorem answer_snd (call : Call) (database : Database) :
    (call.answer database).2 = (call.command.apply database).2 := by
  cases call with
  | get key hkey => exact (Command.apply_get_snd ⟨key⟩ database).symm
  | set key value hkey hvalue => rfl

/-- The reply to the command of a call is interpreted as the answer of the map. -/
theorem interpret_apply (call : Call) (database : Database) :
    call.interpret (.frame (call.command.apply database).1) = (call.answer database).1 := by
  cases call with
  | get key hkey =>
    have hreply := Command.apply_get_fst ⟨key⟩ database
    show interpretGet (.frame ((Command.get ⟨key⟩).apply database).1) = .value (database.get key)
    rw [hreply]
    cases database.get key <;> rfl
  | set key value hkey hvalue => rfl

theorem replay_answer_snd (calls : List Call) (database : Database) :
    (replay answer database calls).2 = (replay Command.apply database (calls.map command)).2 := by
  induction calls generalizing database with
  | nil => rfl
  | cons call calls ih =>
    simp only [List.map_cons, replay, ih, answer_snd]

/-- The map holds the last value set to each key. -/
theorem get_stored (calls : List Call) (key : String) :
    (stored calls).get key = lastSet key (calls.map command) := by
  rw [stored, replay_answer_snd, get_replay, Database.get_new, Option.or_none]

theorem stored_concat (calls : List Call) (call : Call) :
    stored (calls ++ [call]) = (call.command.apply (stored calls)).2 := by
  rw [stored, replay_concat, answer_snd]
  rfl

theorem answered_concat (calls : List Call) (call : Call) :
    answered (calls ++ [call]) = answered calls ++ [(call, (call.answer (stored calls)).1)] := by
  rw [answered, replay_concat, List.zip_append (length_replay calls).symm]
  rfl

@[simp] theorem map_fst_answered (calls : List Call) : (answered calls).map Prod.fst = calls :=
  List.map_fst_zip (Nat.le_of_eq (length_replay calls).symm)

/-- The answer at a position is the one of the map that the calls before it leave. -/
theorem answered_split {calls : List Call} {pre post : List (Call × CallResult)} {call : Call}
    {result : CallResult} (h : answered calls = pre ++ (call, result) :: post) :
    result = (call.answer (stored (pre.map Prod.fst))).1 := by
  have hcalls := congrArg (List.map Prod.fst) h
  rw [map_fst_answered, List.map_append, List.map_cons] at hcalls
  have hpre : (answered (pre.map Prod.fst)).length = pre.length := by
    rw [← List.length_map (f := Prod.fst), map_fst_answered, List.length_map]
  have hsplit : answered calls = answered (pre.map Prod.fst) ++
      (call, (call.answer (stored (pre.map Prod.fst))).1) ::
        (post.map Prod.fst).zip
          (replay answer (stored (pre.map Prod.fst ++ [call])) (post.map Prod.fst)).1 := by
    rw [hcalls, answered, replay_append, List.zip_append (length_replay _).symm]
    congr 1
    simp only [replay, List.zip_cons_cons, stored, replay_concat]
  rw [h] at hsplit
  have hlater := (List.append_inj hsplit hpre.symm).2
  exact (Prod.mk.inj (List.cons.inj hlater).1).2

end Call

/-! ### One requester -/

/-- Where a requester stands. -/
inductive RequesterPhase where
  | idle
  /-- Step 2 awaits `write_frame`, and these bytes are not written yet. -/
  | writing (call : Call) (unsent : Bytes)
  /-- Step 3 awaits `read_frame`. -/
  | awaiting (call : Call)

structure Requester where
  phase : RequesterPhase
  inbound : Reader

inductive RequesterAction where
  | begin (call : Call)
  /-- The transport takes `n` bytes of the awaited write. -/
  | transmit (n : ℕ)
  | flush
  /-- `read_frame` is polled for the first time. -/
  | poll
  /-- The awaited read delivers `n` bytes. -/
  | read (n : ℕ)
  /-- A timeout expires, or the transport fails. -/
  | fail (text : String)
  /-- The future of the call is dropped. -/
  | cancel

inductive RequesterEvent where
  | called (call : Call)
  | returned (call : Call) (result : CallResult)

namespace Requester

def new : Requester := ⟨.idle, ⟨[], [], none⟩⟩

/-- The reader waits on, or its result is interpreted. -/
def settle (call : Call) : Option (Reader × List ReadResult) →
    Option (Requester × Bytes × List RequesterEvent)
  | some (inbound, []) => some (⟨.awaiting call, inbound⟩, [], [])
  | some (inbound, [result]) => some (⟨.idle, inbound⟩, [], [.returned call (call.interpret result)])
  | _ => none

/-- A step, the bytes that it puts on the wire, and its events. `hungUp` says that
the server has closed its sending side. -/
def step (hungUp : Bool) (requester : Requester) (action : RequesterAction) :
    Option (Requester × Bytes × List RequesterEvent) :=
  match requester.phase, action with
  | .idle, .begin call =>
    some ({ requester with phase := .writing call (encode call.commandFrame) }, [], [.called call])
  | .writing call unsent, .transmit n =>
    if n ≤ unsent.length then
      some ({ requester with phase := .writing call (unsent.drop n) }, unsent.take n, [])
    else none
  | .writing call [], .flush => some ({ requester with phase := .awaiting call }, [], [])
  | .awaiting call, .poll => settle call (Reader.step .call requester.inbound)
  | .awaiting call, .read n =>
    if n = 0 → hungUp then settle call (Reader.step (.read n) requester.inbound) else none
  | .writing call _, .fail text =>
    some ({ requester with phase := .idle }, [], [.returned call (.error text)])
  | .awaiting call, .fail text =>
    some (⟨.idle, { requester.inbound with reading := none }⟩, [], [.returned call (.error text)])
  | .writing _ _, .cancel => some ({ requester with phase := .idle }, [], [])
  | .awaiting _, .cancel => some (⟨.idle, { requester.inbound with reading := none }⟩, [], [])
  | _, _ => none

/-- Neither a failure of the transport, nor a timeout, nor a cancellation. -/
def Undisturbed : RequesterAction → Prop
  | .fail _ => False
  | .cancel => False
  | _ => True

/-- Everything an undisturbed step can do. -/
inductive Step (hungUp : Bool) (requester : Requester) :
    RequesterAction → Requester → Bytes → List RequesterEvent → Prop
  | begin (call : Call) (hphase : requester.phase = .idle) :
    Step hungUp requester (.begin call)
      { requester with phase := .writing call (encode call.commandFrame) } [] [.called call]
  | transmit (call : Call) (unsent : Bytes) (n : ℕ) (hphase : requester.phase = .writing call unsent) :
    Step hungUp requester (.transmit n) { requester with phase := .writing call (unsent.drop n) }
      (unsent.take n) []
  | flush (call : Call) (hphase : requester.phase = .writing call []) :
    Step hungUp requester .flush { requester with phase := .awaiting call } [] []
  | wait (call : Call) (action : RequesterAction) (readAction : ReadAction) {next : Reader}
    (hphase : requester.phase = .awaiting call) (hfail : ∀ text, readAction ≠ .fail text)
    (hend : readAction = .read 0 → hungUp = true)
    (hread : Reader.step readAction requester.inbound = some (next, [])) :
    Step hungUp requester action ⟨.awaiting call, next⟩ [] []
  | returned (call : Call) (action : RequesterAction) (readAction : ReadAction) {next : Reader}
    {result : ReadResult} (hphase : requester.phase = .awaiting call)
    (hfail : ∀ text, readAction ≠ .fail text) (hend : readAction = .read 0 → hungUp = true)
    (hread : Reader.step readAction requester.inbound = some (next, [result])) :
    Step hungUp requester action ⟨.idle, next⟩ [] [.returned call (call.interpret result)]

variable {hungUp : Bool} {requester requester' : Requester} {action : RequesterAction}
  {bytes : Bytes} {events : List RequesterEvent}

theorem settle_cases {call : Call} {readAction : ReadAction}
    (hphase : requester.phase = .awaiting call) (hfail : ∀ text, readAction ≠ .fail text)
    (hend : readAction = .read 0 → hungUp = true)
    (h : settle call (Reader.step readAction requester.inbound) =
      some (requester', bytes, events)) :
    Step hungUp requester action requester' bytes events := by
  rcases hread : Reader.step readAction requester.inbound with _ | ⟨next, _ | ⟨result, _ | more⟩⟩
  · rw [hread] at h
    cases h
  · rw [hread] at h
    cases h
    exact .wait call action readAction hphase hfail hend hread
  · rw [hread] at h
    cases h
    exact .returned call action readAction hphase hfail hend hread
  · rw [hread] at h
    cases h

theorem step_cases (hundisturbed : Undisturbed action)
    (h : step hungUp requester action = some (requester', bytes, events)) :
    Step hungUp requester action requester' bytes events := by
  unfold step at h
  split at h
  case h_1 call hphase =>
    cases h
    exact .begin call hphase
  case h_2 call unsent n hphase =>
    split at h
    · cases h
      exact .transmit call unsent n hphase
    · cases h
  case h_3 call hphase =>
    cases h
    exact .flush call hphase
  case h_4 call hphase => exact settle_cases hphase (by simp) (by simp) h
  case h_5 call n hphase =>
    split at h
    · rename_i hend
      exact settle_cases hphase (by simp) (by simpa using hend) h
    · cases h
  case h_6 => exact absurd hundisturbed not_false
  case h_7 => exact absurd hundisturbed not_false
  case h_8 => exact absurd hundisturbed not_false
  case h_9 => exact absurd hundisturbed not_false
  case h_10 => cases h

end Requester
end MiniRedis
