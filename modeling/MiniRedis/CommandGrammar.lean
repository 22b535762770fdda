import MiniRedis.Command
import Mathlib.Data.List.Forall2

/-!
# The grammar of commands

`Command::from_frame` consumes an array in stages and each stage has a failure of
its own. The result only depends on the contents of the arguments, and missing
arguments are reported exactly where more arguments would help.
-/
namespace MiniRedis

open Library

/-- A bulk or simple string with these bytes. -/
inductive Carries : Frame → Bytes → Prop where
  | bulk {bytes : Bytes} : Carries (.bulk bytes) bytes
  | simple {string : String} : Carries (.simple string) (asBytes string)

theorem argument_eq_ok {frame : Frame} {bytes : Bytes} :
    Parse.argument frame = .ok bytes ↔ Carries frame bytes := by
  constructor
  · intro h
    cases frame with
    | bulk b =>
      cases h
      exact .bulk
    | simple string =>
      cases h
      exact .simple
    | error string => cases h
    | integer num => cases h
    | array elements => cases h
    | null => cases h
  · intro h
    cases h with
    | bulk => rfl
    | simple => rfl

/-! ### Names -/

/-- Every byte is a letter of the capital word or its small form. -/
def Spells (bytes word : Bytes) : Prop :=
  List.Forall₂ (fun byte letter => byte = letter ∨ byte = letter + 32) bytes word

def IsCapital (byte : UInt8) : Prop := 65 ≤ byte ∧ byte ≤ 90

instance (byte : UInt8) : Decidable (IsCapital byte) :=
  inferInstanceAs (Decidable (65 ≤ byte ∧ byte ≤ 90))

theorem isCapital_iff {byte : UInt8} : IsCapital byte ↔ 65 ≤ byte.toNat ∧ byte.toNat ≤ 90 := by
  unfold IsCapital
  rw [UInt8.le_iff_toNat_le, UInt8.le_iff_toNat_le]
  rfl

theorem toNat_add_of_isCapital {byte : UInt8} (h : IsCapital byte) :
    (byte + 32).toNat = byte.toNat + 32 := by
  obtain ⟨_, hhigh⟩ := isCapital_iff.mp h
  have hsmall : byte.toNat + 32 < 256 := by omega
  rw [UInt8.toNat_add]
  exact Nat.mod_eq_of_lt hsmall

/-- Two capitals with one small form are equal. -/
theorem toAsciiLowercase_eq_iff {byte letter : UInt8} (h : IsCapital letter) :
    toAsciiLowercase byte = letter + 32 ↔ byte = letter ∨ byte = letter + 32 := by
  have hletter := isCapital_iff.mp h
  have hsum := toNat_add_of_isCapital h
  by_cases hbyte : IsCapital byte
  · have hsum' := toNat_add_of_isCapital hbyte
    have hcap := isCapital_iff.mp hbyte
    rw [show toAsciiLowercase byte = byte + 32 from if_pos hbyte]
    simp only [← UInt8.toNat_inj]
    omega
  · rw [show toAsciiLowercase byte = byte from if_neg hbyte]
    constructor
    · exact .inr
    · intro heq
      rcases heq with rfl | heq
      · exact absurd h hbyte
      · exact heq

theorem map_toAsciiLowercase {word : Bytes} (hword : ∀ letter ∈ word, IsCapital letter)
    {bytes : Bytes} :
    bytes.map toAsciiLowercase = word.map toAsciiLowercase ↔ Spells bytes word := by
  unfold Spells
  induction word generalizing bytes with
  | nil => simp [List.forall₂_nil_right_iff]
  | cons letter word ih =>
    have hletter : IsCapital letter := hword letter List.mem_cons_self
    have hsmall : toAsciiLowercase letter = letter + 32 := if_pos hletter
    have hrest : ∀ letter ∈ word, IsCapital letter := fun other hother =>
      hword other (List.mem_cons_of_mem _ hother)
    cases bytes with
    | nil => simp
    | cons byte bytes =>
      rw [List.map_cons, List.map_cons, List.cons.injEq, List.forall₂_cons, hsmall,
        toAsciiLowercase_eq_iff hletter, ih hrest]

theorem eqIgnoreAsciiCase_get {name : String} :
    eqIgnoreAsciiCase name "GET" = true ↔ Spells (asBytes name) (asBytes "GET") := by
  have hbytes : asBytes "GET" = [71, 69, 84] := by decide
  have hword : ∀ letter ∈ asBytes "GET", IsCapital letter := by simp [hbytes, IsCapital]
  rw [← map_toAsciiLowercase hword, eqIgnoreAsciiCase, decide_eq_true_iff]

theorem eqIgnoreAsciiCase_set {name : String} :
    eqIgnoreAsciiCase name "SET" = true ↔ Spells (asBytes name) (asBytes "SET") := by
  have hbytes : asBytes "SET" = [83, 69, 84] := by decide
  have hword : ∀ letter ∈ asBytes "SET", IsCapital letter := by simp [hbytes, IsCapital]
  rw [← map_toAsciiLowercase hword, eqIgnoreAsciiCase, decide_eq_true_iff]

/-! ### Accepted frames -/

/-- Two arguments, of which the first spells GET and the second is the key. -/
def IsGet (frame : Frame) (key : String) : Prop :=
  ∃ first second name, frame = .array [first, second] ∧ Carries first (asBytes name) ∧
    Spells (asBytes name) (asBytes "GET") ∧ Carries second (asBytes key)

/-- Three arguments, of which the first spells SET, with the key and the value behind it. -/
def IsSet (frame : Frame) (key : String) (value : Bytes) : Prop :=
  ∃ first second third name, frame = .array [first, second, third] ∧
    Carries first (asBytes name) ∧ Spells (asBytes name) (asBytes "SET") ∧
    Carries second (asBytes key) ∧ Carries third value

theorem fromFrame_get_iff {frame : Frame} {key : String} :
    Command.fromFrame frame = .ok (.get { key }) ↔ IsGet frame key := by
  rw [Command.fromFrame_eq_ok_iff]
  constructor
  · rintro ⟨name, first, parts, rfl, hname, hget, second, rfl, hkey⟩
    exact ⟨first, second, name, rfl, argument_eq_ok.mp hname, eqIgnoreAsciiCase_get.mp hget,
      argument_eq_ok.mp hkey⟩
  · rintro ⟨first, second, name, rfl, hname, hget, hkey⟩
    exact ⟨name, first, [second], rfl, argument_eq_ok.mpr hname, eqIgnoreAsciiCase_get.mpr hget,
      second, rfl, argument_eq_ok.mpr hkey⟩

theorem fromFrame_set_iff {frame : Frame} {key : String} {value : Bytes} :
    Command.fromFrame frame = .ok (.set { key, value }) ↔ IsSet frame key value := by
  rw [Command.fromFrame_eq_ok_iff]
  constructor
  · rintro ⟨name, first, parts, rfl, hname, hset, second, third, rfl, hkey, hvalue⟩
    exact ⟨first, second, third, name, rfl, argument_eq_ok.mp hname, eqIgnoreAsciiCase_set.mp hset,
      argument_eq_ok.mp hkey, argument_eq_ok.mp hvalue⟩
  · rintro ⟨first, second, third, name, rfl, hname, hset, hkey, hvalue⟩
    exact ⟨name, first, [second, third], rfl, argument_eq_ok.mpr hname,
      eqIgnoreAsciiCase_set.mpr hset, second, third, rfl, argument_eq_ok.mpr hkey,
      argument_eq_ok.mpr hvalue⟩

/-! ### Missing arguments -/

theorem argument_ne_endOfStream (frame : Frame) :
    Parse.argument frame ≠ .error .endOfStream := by
  cases frame <;> simp [Parse.argument]

theorem nextBytes_endOfStream {parser : Parse} :
    (Parse.nextBytes parser).1 = .error .endOfStream ↔ parser.parts = [] := by
  unfold Parse.nextBytes
  cases parser.parts with
  | nil => simp
  | cons frame parts => simpa using argument_ne_endOfStream frame

theorem nextString_endOfStream {parser : Parse} :
    (Parse.nextString parser).1 = .error .endOfStream ↔ parser.parts = [] := by
  rw [Parse.nextString, Fallible.bind_fst_eq_error, nextBytes_endOfStream]
  constructor
  · rintro (hnil | ⟨bytes, rest, _, herr⟩)
    · exact hnil
    · cases hutf : fromUtf8 bytes with
      | none =>
        rw [hutf] at herr
        cases herr
      | some string =>
        rw [hutf] at herr
        cases herr
  · exact .inl

theorem finish_ne_endOfStream (parser : Parse) :
    (Parse.finish parser).1 ≠ .error .endOfStream := by
  unfold Parse.finish
  cases parser.parts <;> simp

/-- Behind the last argument only extra ones are reported. -/
theorem finish_bind_ne_endOfStream {α : Type} (a : α) (parser : Parse) :
    ¬ ((Parse.finish >>= fun _ => (pure a : ParseM α)) parser).1 = .error .endOfStream := by
  rw [Fallible.bind_fst_eq_error]
  rintro (hend | ⟨_, _, _, herr⟩)
  · exact finish_ne_endOfStream parser hend
  · cases herr

theorem getFromParse_endOfStream {parser : Parse} :
    (Get.fromParse parser).1 = .error .endOfStream ↔ parser.parts = [] := by
  rw [Get.fromParse, Fallible.bind_fst_eq_error, nextString_endOfStream]
  constructor
  · rintro (hnil | ⟨key, rest, _, herr⟩)
    · exact hnil
    · exact absurd herr (finish_bind_ne_endOfStream _ rest)
  · exact .inl

theorem setFromParse_endOfStream {parser : Parse} :
    (Set.fromParse parser).1 = .error .endOfStream ↔
      parser.parts = [] ∨ ∃ second key, parser.parts = [second] ∧ Carries second (asBytes key) := by
  rw [Set.fromParse, Fallible.bind_fst_eq_error, nextString_endOfStream]
  constructor
  · rintro (hnil | ⟨key, rest, hkey, herr⟩)
    · exact .inl hnil
    · obtain ⟨second, hparts, harg⟩ := Parse.nextString_eq_ok.mp hkey
      rcases Fallible.bind_fst_eq_error.mp herr with hend | ⟨value, last, _, hfin⟩
      · rw [nextBytes_endOfStream.mp hend] at hparts
        exact .inr ⟨second, key, hparts, argument_eq_ok.mp harg⟩
      · exact absurd hfin (finish_bind_ne_endOfStream _ last)
  · rintro (hnil | ⟨second, key, hparts, harg⟩)
    · exact .inl hnil
    · refine .inr ⟨key, ⟨[]⟩,
        Parse.nextString_eq_ok.mpr ⟨second, hparts, argument_eq_ok.mpr harg⟩, ?_⟩
      exact Fallible.bind_fst_eq_error.mpr (.inl (nextBytes_endOfStream.mpr rfl))

/-- The arrays that stop before a required argument. -/
inductive Truncated : List Frame → Prop where
  | empty : Truncated []
  | name {first : Frame} {name : String} :
      Carries first (asBytes name) →
      Spells (asBytes name) (asBytes "GET") ∨ Spells (asBytes name) (asBytes "SET") →
      Truncated [first]
  | key {first second : Frame} {name key : String} :
      Carries first (asBytes name) → Spells (asBytes name) (asBytes "SET") →
      Carries second (asBytes key) → Truncated [first, second]

theorem fromParse_endOfStream {elements : List Frame} :
    (Command.fromParse ⟨elements⟩).1 = .error .endOfStream ↔ Truncated elements := by
  rw [Command.fromParse, Fallible.bind_fst_eq_error, nextString_endOfStream]
  constructor
  · rintro (hnil | ⟨name, ⟨parts⟩, hname, herr⟩)
    · simp only at hnil
      rw [hnil]
      exact .empty
    · obtain ⟨first, helements, harg⟩ := Parse.nextString_eq_ok.mp hname
      simp only at helements
      rw [helements]
      split at herr
      · rename_i hget
        rcases Fallible.bind_fst_eq_error.mp herr with hend | ⟨_, _, _, hpure⟩
        · have hparts : parts = [] := getFromParse_endOfStream.mp hend
          rw [hparts]
          exact .name (argument_eq_ok.mp harg) (.inl (eqIgnoreAsciiCase_get.mp hget))
        · cases hpure
      split at herr
      · rename_i hset
        rcases Fallible.bind_fst_eq_error.mp herr with hend | ⟨_, _, _, hpure⟩
        · obtain hparts | ⟨second, key, hparts, hkey⟩ := setFromParse_endOfStream.mp hend
          · simp only at hparts
            rw [hparts]
            exact .name (argument_eq_ok.mp harg) (.inr (eqIgnoreAsciiCase_set.mp hset))
          · simp only at hparts
            rw [hparts]
            exact .key (argument_eq_ok.mp harg) (eqIgnoreAsciiCase_set.mp hset) hkey
        · cases hpure
      · cases herr
  · intro h
    cases h with
    | empty => exact .inl rfl
    | @name first name hname hspells =>
      have hrun : Parse.nextString ⟨[first]⟩ = (.ok name, ⟨[]⟩) :=
        Parse.nextString_eq_ok.mpr ⟨first, rfl, argument_eq_ok.mpr hname⟩
      refine .inr ⟨name, ⟨[]⟩, hrun, ?_⟩
      by_cases hget : eqIgnoreAsciiCase name "GET"
      · rw [if_pos hget]
        exact Fallible.bind_fst_eq_error.mpr (.inl (getFromParse_endOfStream.mpr rfl))
      · have hset : eqIgnoreAsciiCase name "SET" := by
          rw [eqIgnoreAsciiCase_set]
          rw [eqIgnoreAsciiCase_get] at hget
          exact hspells.resolve_left hget
        rw [if_neg hget, if_pos hset]
        exact Fallible.bind_fst_eq_error.mpr (.inl (setFromParse_endOfStream.mpr (.inl rfl)))
    | @key first second name key hname hspells hkey =>
      have hrun : Parse.nextString ⟨[first, second]⟩ = (.ok name, ⟨[second]⟩) :=
        Parse.nextString_eq_ok.mpr ⟨first, rfl, argument_eq_ok.mpr hname⟩
      have hset : eqIgnoreAsciiCase name "SET" := eqIgnoreAsciiCase_set.mpr hspells
      refine .inr ⟨name, ⟨[second]⟩, hrun, ?_⟩
      rw [if_neg (not_get_of_set hset), if_pos hset]
      exact Fallible.bind_fst_eq_error.mpr
        (.inl (setFromParse_endOfStream.mpr (.inr ⟨second, key, rfl, hkey⟩)))

/-- Rejected as it stands, but a beginning of an accepted array. -/
def Completable (frame : Frame) : Prop :=
  ∃ elements, frame = .array elements ∧ (∀ command, Command.fromFrame frame ≠ .ok command) ∧
    ∃ more command, more ≠ [] ∧ Command.fromFrame (.array (elements ++ more)) = .ok command

/-- Every array that stops early can be completed. -/
theorem Truncated.completion {elements : List Frame} (h : Truncated elements) :
    ∃ more command, more ≠ [] ∧
      Command.fromFrame (.array (elements ++ more)) = .ok command := by
  have hget : Carries (.simple "GET") (asBytes "GET") := .simple
  have hspells : Spells (asBytes "GET") (asBytes "GET") := eqIgnoreAsciiCase_get.mp rfl
  have hempty : Carries (.simple "") (asBytes "") := .simple
  cases h with
  | empty =>
    refine ⟨[.simple "GET", .simple ""], .get { key := "" }, by simp, fromFrame_get_iff.mpr ?_⟩
    exact ⟨_, _, "GET", rfl, hget, hspells, hempty⟩
  | @name first name hname hname' =>
    rcases hname' with hname' | hname'
    · refine ⟨[.simple ""], .get { key := "" }, by simp, fromFrame_get_iff.mpr ?_⟩
      exact ⟨_, _, name, rfl, hname, hname', hempty⟩
    · refine ⟨[.simple "", .simple ""], .set { key := "", value := asBytes "" }, by simp,
        fromFrame_set_iff.mpr ?_⟩
      exact ⟨_, _, _, name, rfl, hname, hname', hempty, hempty⟩
  | @key first second name key hname hname' hkey =>
    refine ⟨[.simple ""], .set { key := key, value := asBytes "" }, by simp,
      fromFrame_set_iff.mpr ?_⟩
    exact ⟨_, _, _, name, rfl, hname, hname', hkey, hempty⟩

theorem nil_of_append_eq_singleton {elements more : List Frame} {last : Frame} (hmore : more ≠ [])
    (h : elements ++ more = [last]) : elements = [] := by
  rcases List.append_eq_singleton_iff.mp h with ⟨hnil, _⟩ | ⟨_, hnil⟩
  · exact hnil
  · exact absurd hnil hmore

/-- A strict beginning of an accepted array stops early. -/
theorem truncated_of_append {elements more : List Frame} {command : Command} (hmore : more ≠ [])
    (h : Command.fromFrame (.array (elements ++ more)) = .ok command) : Truncated elements := by
  cases command with
  | get get =>
    obtain ⟨first, second, name, heq, hname, hget, _⟩ := fromFrame_get_iff.mp h
    injection heq with happend
    cases elements with
    | nil => exact .empty
    | cons element elements =>
      injection happend with hfirst hrest
      rw [nil_of_append_eq_singleton hmore hrest, hfirst]
      exact .name hname (.inl hget)
  | set set =>
    obtain ⟨first, second, third, name, heq, hname, hset, hkey, _⟩ := fromFrame_set_iff.mp h
    injection heq with happend
    cases elements with
    | nil => exact .empty
    | cons element elements =>
      injection happend with hfirst hrest
      cases elements with
      | nil =>
        rw [hfirst]
        exact .name hname (.inr hset)
      | cons other elements =>
        injection hrest with hsecond htail
        rw [nil_of_append_eq_singleton hmore htail, hfirst, hsecond]
        exact .key hname hset hkey

theorem fromFrame_endOfStream_iff {frame : Frame} :
    Command.fromFrame frame = .error .endOfStream ↔ Completable frame := by
  constructor
  · intro h
    cases frame with
    | array elements =>
      have htruncated := fromParse_endOfStream.mp h
      refine ⟨elements, rfl, ?_, htruncated.completion⟩
      intro command hok
      rw [h] at hok
      cases hok
    | simple string => cases h
    | error string => cases h
    | integer num => cases h
    | bulk bytes => cases h
    | null => cases h
  · rintro ⟨elements, rfl, -, more, command, hmore, hok⟩
    exact fromParse_endOfStream.mpr (truncated_of_append hmore hok)

/-! ### Contents of arguments -/

/-- The same argument, or a bulk and a simple string of the same bytes. -/
inductive SameArgument : Frame → Frame → Prop where
  | refl (frame : Frame) : SameArgument frame frame
  | toSimple (string : String) : SameArgument (.bulk (asBytes string)) (.simple string)
  | toBulk (string : String) : SameArgument (.simple string) (.bulk (asBytes string))

theorem SameArgument.argument {frame frame' : Frame} (h : SameArgument frame frame') :
    Parse.argument frame = Parse.argument frame' := by
  cases h <;> rfl

/-- The remaining arguments have the same contents. -/
def Alike (parser parser' : Parse) : Prop := List.Forall₂ SameArgument parser.parts parser'.parts

theorem nextBytes_respects : Parse.nextBytes.Respects Alike := by
  rintro ⟨parts⟩ ⟨parts'⟩ h
  unfold Alike at h
  cases h with
  | nil => exact ⟨rfl, .nil⟩
  | cons hsame hrest => exact ⟨hsame.argument, hrest⟩

theorem finish_respects : Parse.finish.Respects Alike := by
  rintro ⟨parts⟩ ⟨parts'⟩ h
  unfold Alike at h
  cases h with
  | nil => exact ⟨rfl, .nil⟩
  | cons hsame hrest => exact ⟨rfl, hrest⟩

theorem nextString_respects : Parse.nextString.Respects Alike := by
  refine nextBytes_respects.bind fun bytes => ?_
  cases fromUtf8 bytes with
  | some string => exact Fallible.respects_pure string
  | none => exact Fallible.respects_err _

theorem getFromParse_respects : Get.fromParse.Respects Alike :=
  nextString_respects.bind fun _ => finish_respects.bind fun _ => Fallible.respects_pure _

theorem setFromParse_respects : Set.fromParse.Respects Alike :=
  nextString_respects.bind fun _ => nextBytes_respects.bind fun _ =>
    finish_respects.bind fun _ => Fallible.respects_pure _

theorem fromParse_respects : Command.fromParse.Respects Alike := by
  refine nextString_respects.bind fun name => .ite ?_ (.ite ?_ (Fallible.respects_err _))
  · exact getFromParse_respects.bind fun _ => Fallible.respects_pure _
  · exact setFromParse_respects.bind fun _ => Fallible.respects_pure _

/-- Command parsing accepts exactly the GET and SET forms, reports missing arguments exactly
where some more would complete the array, rejects everything else, and cannot tell a bulk
argument from a simple one of the same bytes. -/
theorem fromFrame_grammar :
    (∀ frame key, Command.fromFrame frame = .ok (.get { key }) ↔ IsGet frame key) ∧
    (∀ frame key value,
      Command.fromFrame frame = .ok (.set { key, value }) ↔ IsSet frame key value) ∧
    (∀ frame, Command.fromFrame frame = .error .endOfStream ↔ Completable frame) ∧
    (∀ frame, (∃ message, Command.fromFrame frame = .error (.other message)) ↔
      (¬ ∃ key, IsGet frame key) ∧ (¬ ∃ key value, IsSet frame key value) ∧
        ¬ Completable frame) ∧
    ∀ elements elements', List.Forall₂ SameArgument elements elements' →
      Command.fromFrame (.array elements) = Command.fromFrame (.array elements') := by
  refine ⟨fun _ _ => fromFrame_get_iff, fun _ _ _ => fromFrame_set_iff,
    fun _ => fromFrame_endOfStream_iff, ?_, ?_⟩
  · intro frame
    constructor
    · rintro ⟨message, h⟩
      refine ⟨?_, ?_, ?_⟩
      · rintro ⟨key, hget⟩
        rw [← fromFrame_get_iff, h] at hget
        cases hget
      · rintro ⟨key, value, hset⟩
        rw [← fromFrame_set_iff, h] at hset
        cases hset
      · intro hend
        rw [← fromFrame_endOfStream_iff, h] at hend
        cases hend
    · rintro ⟨hget, hset, hend⟩
      rcases hresult : Command.fromFrame frame with (_ | message) | (get | set)
      · exact absurd (fromFrame_endOfStream_iff.mp hresult) hend
      · exact ⟨message, rfl⟩
      · exact absurd ⟨get.key, fromFrame_get_iff.mp hresult⟩ hget
      · exact absurd ⟨set.key, set.value, fromFrame_set_iff.mp hresult⟩ hset
  · intro elements elements' h
    exact (fromParse_respects ⟨elements⟩ ⟨elements'⟩ h).1

/-- A GET with a mixed-case name, and the same one with both arguments in the other form. -/
theorem fromFrame_grammar_mixed :
    Command.fromFrame (.array [.simple "gEt", .bulk (asBytes "k")]) = .ok (.get ⟨"k"⟩) ∧
      Command.fromFrame (.array [.bulk (asBytes "gEt"), .simple "k"]) = .ok (.get ⟨"k"⟩) := by
  have hname : eqIgnoreAsciiCase "gEt" "GET" = true := by decide
  have hget : Command.fromFrame (.array [.simple "gEt", .bulk (asBytes "k")]) =
      .ok (.get ⟨"k"⟩) :=
    (fromFrame_grammar.1 _ "k").mpr
      ⟨_, _, "gEt", rfl, .simple, eqIgnoreAsciiCase_get.mp hname, .bulk⟩
  have hsame := fromFrame_grammar.2.2.2.2 [.simple "gEt", .bulk (asBytes "k")] _
    (.cons (.toBulk "gEt") (.cons (.toSimple "k") .nil))
  exact ⟨hget, hsame.symm.trans hget⟩

end MiniRedis
