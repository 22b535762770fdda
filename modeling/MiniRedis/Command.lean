import MiniRedis.Database
import MiniRedis.Frame.Parser

/-!
# Commands

`Parse` hands out the elements of an array frame one at a time; `Command` parses
a GET or SET from them and applies it to the database.
-/
namespace MiniRedis

open Library

/-- `parse::Error`. -/
inductive ParseError where
  | endOfStream
  | other (message : String)
  deriving DecidableEq, Repr

def ParseError.display : ParseError → String
  | .endOfStream => "No more command arguments"
  | .other message => message

structure Parse where
  parts : List Frame

abbrev ParseM : Type → Type := Fallible Parse ParseError

namespace Parse

def fromFrame : Frame → Except ParseError Parse
  | .array elements => .ok ⟨elements⟩
  | _ => .error (.other "Expected an array frame")

/-- The contents of a bulk or simple string argument. -/
def argument : Frame → Except ParseError Bytes
  | .bulk bytes => .ok bytes
  | .simple string => .ok (asBytes string)
  | _ => .error (.other "Expected a bulk or simple string argument")

/-- The next argument is consumed even when its type is rejected. -/
def nextBytes : ParseM Bytes := fun parser =>
  match parser.parts with
  | [] => (.error .endOfStream, parser)
  | frame :: parts => (argument frame, ⟨parts⟩)

def nextString : ParseM String := do
  let bytes ← nextBytes
  match fromUtf8 bytes with
  | some string => pure string
  | none => Fallible.err (.other "Argument is not valid UTF-8")

def finish : ParseM Unit := fun parser =>
  match parser.parts with
  | [] => (.ok (), parser)
  | _ :: parts => (.error (.other "Unexpected extra argument"), ⟨parts⟩)

end Parse

structure Get where
  key : String
  deriving DecidableEq, Repr

structure Set where
  key : String
  value : Bytes
  deriving DecidableEq, Repr

inductive Command where
  | get (command : Get)
  | set (command : Set)
  deriving DecidableEq, Repr

def Get.fromParse : ParseM Get := do
  let key ← Parse.nextString
  Parse.finish
  pure { key }

def Set.fromParse : ParseM Set := do
  let key ← Parse.nextString
  let value ← Parse.nextBytes
  Parse.finish
  pure { key, value }

/-- `u8::to_ascii_lowercase`. -/
def toAsciiLowercase (byte : UInt8) : UInt8 := if 65 ≤ byte ∧ byte ≤ 90 then byte + 32 else byte

/-- `str::eq_ignore_ascii_case`. -/
def eqIgnoreAsciiCase (s t : String) : Bool :=
  (asBytes s).map toAsciiLowercase = (asBytes t).map toAsciiLowercase

namespace Command

/-- Steps 2 and 3 of `Command::from_frame`. -/
def fromParse : ParseM Command := do
  let commandName ← Parse.nextString
  if eqIgnoreAsciiCase commandName "GET" then
    let command ← Get.fromParse
    pure (Command.get command)
  else if eqIgnoreAsciiCase commandName "SET" then
    let command ← Set.fromParse
    pure (Command.set command)
  else Fallible.err (.other "Unsupported command; expected GET or SET")

def fromFrame (frame : Frame) : Except ParseError Command := do
  let parser ← Parse.fromFrame frame
  (fromParse parser).1

/-- `Command::apply`: the response and the database it leaves. -/
def apply (command : Command) (database : Database) : Frame × Database :=
  match command with
  | .get command =>
    match database.get command.key with
    | some bytes => (.bulk bytes, database)
    | none => (.null, database)
  | .set command => (.simple "OK", database.set command.key command.value)

end Command

/-! ### What is accepted -/

namespace Parse

theorem nextBytes_eq_ok {parser parser' : Parse} {bytes : Bytes} :
    nextBytes parser = (.ok bytes, parser') ↔
      ∃ frame, parser.parts = frame :: parser'.parts ∧ argument frame = .ok bytes := by
  obtain ⟨parts⟩ := parser
  obtain ⟨parts'⟩ := parser'
  cases parts with
  | nil => simp [nextBytes]
  | cons frame parts => simp [nextBytes, and_comm]

theorem nextString_eq_ok {parser parser' : Parse} {string : String} :
    nextString parser = (.ok string, parser') ↔
      ∃ frame, parser.parts = frame :: parser'.parts ∧ argument frame = .ok (asBytes string) := by
  rw [nextString, Fallible.bind_eq_ok]
  constructor
  · rintro ⟨bytes, middle, hbytes, hrun⟩
    obtain ⟨frame, hparts, harg⟩ := nextBytes_eq_ok.mp hbytes
    cases hutf : fromUtf8 bytes with
    | none =>
      rw [hutf] at hrun
      cases hrun
    | some s =>
      rw [hutf] at hrun
      obtain ⟨rfl, rfl⟩ := Fallible.pure_eq_ok.mp hrun
      rw [fromUtf8_eq_some.mp hutf]
      exact ⟨frame, hparts, harg⟩
  · rintro ⟨frame, hparts, harg⟩
    refine ⟨asBytes string, parser', nextBytes_eq_ok.mpr ⟨frame, hparts, harg⟩, ?_⟩
    rw [fromUtf8_asBytes]
    rfl

theorem finish_eq_ok {parser parser' : Parse} {done : Unit} :
    finish parser = (.ok done, parser') ↔ parser.parts = [] ∧ parser' = parser := by
  obtain ⟨parts⟩ := parser
  cases parts with
  | nil => simp [finish, eq_comm]
  | cons frame parts => simp [finish]

end Parse

theorem Get.fromParse_eq_ok {parser parser' : Parse} {command : Get} :
    Get.fromParse parser = (.ok command, parser') ↔
      ∃ frame, parser.parts = [frame] ∧ Parse.argument frame = .ok (asBytes command.key) ∧
        parser' = ⟨[]⟩ := by
  simp only [Get.fromParse, Fallible.bind_eq_ok, Fallible.pure_eq_ok, Parse.nextString_eq_ok,
    Parse.finish_eq_ok]
  constructor
  · rintro ⟨key, middle, ⟨frame, hparts, harg⟩, _, _, ⟨hfin, rfl⟩, rfl, rfl⟩
    refine ⟨frame, hfin ▸ hparts, harg, ?_⟩
    rw [← hfin]
  · rintro ⟨frame, hparts, harg, rfl⟩
    exact ⟨command.key, ⟨[]⟩, ⟨frame, hparts, harg⟩, (), ⟨[]⟩, ⟨rfl, rfl⟩, rfl, rfl⟩

theorem Set.fromParse_eq_ok {parser parser' : Parse} {command : Set} :
    Set.fromParse parser = (.ok command, parser') ↔
      ∃ first second, parser.parts = [first, second] ∧
        Parse.argument first = .ok (asBytes command.key) ∧
        Parse.argument second = .ok command.value ∧ parser' = ⟨[]⟩ := by
  simp only [Set.fromParse, Fallible.bind_eq_ok, Fallible.pure_eq_ok, Parse.nextString_eq_ok,
    Parse.nextBytes_eq_ok, Parse.finish_eq_ok]
  constructor
  · rintro ⟨key, _, ⟨first, hfirst, hkey⟩, value, middle, ⟨second, hsecond, hvalue⟩, _, _,
      ⟨hfin, rfl⟩, rfl, rfl⟩
    refine ⟨first, second, by rw [hfirst, hsecond, hfin], hkey, hvalue, ?_⟩
    rw [← hfin]
  · rintro ⟨first, second, hparts, hkey, hvalue, rfl⟩
    exact ⟨command.key, ⟨[second]⟩, ⟨first, hparts, hkey⟩, command.value, ⟨[]⟩,
      ⟨second, rfl, hvalue⟩, (), ⟨[]⟩, ⟨rfl, rfl⟩, rfl, rfl⟩

/-- No name selects both commands. -/
theorem not_get_of_set {name : String} (h : eqIgnoreAsciiCase name "SET" = true) :
    ¬ eqIgnoreAsciiCase name "GET" = true := by
  have hset : (asBytes name).map toAsciiLowercase = (asBytes "SET").map toAsciiLowercase := by
    simpa [eqIgnoreAsciiCase] using h
  intro hget
  have hget' : (asBytes name).map toAsciiLowercase = (asBytes "GET").map toAsciiLowercase := by
    simpa [eqIgnoreAsciiCase] using hget
  rw [hset] at hget'
  exact absurd hget' (by decide)

namespace Command

theorem fromFrame_array (elements : List Frame) :
    fromFrame (.array elements) = (fromParse ⟨elements⟩).1 := rfl

theorem fromFrame_eq_ok {frame : Frame} {command : Command} :
    fromFrame frame = .ok command ↔
      ∃ elements parser', frame = .array elements ∧
        fromParse ⟨elements⟩ = (.ok command, parser') := by
  cases frame with
  | array elements =>
    rw [fromFrame_array]
    constructor
    · intro h
      exact ⟨elements, (fromParse ⟨elements⟩).2, rfl, Prod.ext h rfl⟩
    · rintro ⟨_, parser', heq, h⟩
      cases heq
      rw [h]
  | _ => simp [fromFrame, Parse.fromFrame, bind, Except.bind]

/-- The accepted frames: a name, and what the command that it selects requires. -/
theorem fromFrame_eq_ok_iff {frame : Frame} {command : Command} :
    fromFrame frame = .ok command ↔
      ∃ name nameFrame parts, frame = .array (nameFrame :: parts) ∧
        Parse.argument nameFrame = .ok (asBytes name) ∧
        match command with
        | .get command => eqIgnoreAsciiCase name "GET" ∧ ∃ key, parts = [key] ∧
            Parse.argument key = .ok (asBytes command.key)
        | .set command => eqIgnoreAsciiCase name "SET" ∧ ∃ key value, parts = [key, value] ∧
            Parse.argument key = .ok (asBytes command.key) ∧
            Parse.argument value = .ok command.value := by
  rw [fromFrame_eq_ok]
  constructor
  · rintro ⟨elements, parser', rfl, hrun⟩
    obtain ⟨name, ⟨parts⟩, hname, hbody⟩ := Fallible.bind_eq_ok.mp hrun
    obtain ⟨nameFrame, helements, harg⟩ := Parse.nextString_eq_ok.mp hname
    simp only at helements
    refine ⟨name, nameFrame, parts, by rw [helements], harg, ?_⟩
    split at hbody
    · rename_i hget
      obtain ⟨get, middle, hfrom, hpure⟩ := Fallible.bind_eq_ok.mp hbody
      obtain ⟨rfl, -⟩ := Fallible.pure_eq_ok.mp hpure
      obtain ⟨key, hparts, hkey, -⟩ := Get.fromParse_eq_ok.mp hfrom
      exact ⟨hget, key, hparts, hkey⟩
    split at hbody
    · rename_i hset
      obtain ⟨set, middle, hfrom, hpure⟩ := Fallible.bind_eq_ok.mp hbody
      obtain ⟨rfl, -⟩ := Fallible.pure_eq_ok.mp hpure
      obtain ⟨key, value, hparts, hkey, hvalue, -⟩ := Set.fromParse_eq_ok.mp hfrom
      exact ⟨hset, key, value, hparts, hkey, hvalue⟩
    · cases hbody
  · rintro ⟨name, nameFrame, parts, rfl, harg, hcommand⟩
    refine ⟨_, ⟨[]⟩, rfl, ?_⟩
    refine Fallible.bind_eq_ok.mpr
      ⟨name, ⟨parts⟩, Parse.nextString_eq_ok.mpr ⟨nameFrame, rfl, harg⟩, ?_⟩
    cases command with
    | get command =>
      obtain ⟨hget, key, rfl, hkey⟩ := hcommand
      rw [if_pos hget]
      exact Fallible.bind_eq_ok.mpr
        ⟨command, ⟨[]⟩, Get.fromParse_eq_ok.mpr ⟨key, rfl, hkey, rfl⟩, rfl⟩
    | set command =>
      obtain ⟨hset, key, value, rfl, hkey, hvalue⟩ := hcommand
      rw [if_neg (not_get_of_set hset), if_pos hset]
      exact Fallible.bind_eq_ok.mpr
        ⟨command, ⟨[]⟩, Set.fromParse_eq_ok.mpr ⟨key, value, rfl, hkey, hvalue, rfl⟩, rfl⟩

/-- A lookup leaves the database as it is. -/
theorem apply_get_snd (command : Get) (database : Database) :
    ((Command.get command).apply database).2 = database := by
  unfold apply
  cases hget : database.get command.key <;> simp [hget]

end Command
end MiniRedis
