import Mathlib.Data.List.Basic
import AccessRules.Command.Call
import AccessRules.Proofs.Command.Output

/-!
# Streams that give out

A stream takes the bytes of the output one after the other until it gives out. So what it
has taken is a prefix of the whole output, and the failure names the call whose text holds
the first byte that was refused.
-/

namespace AccessRules
namespace Command

open Text (encode)

/-!
## Writes on a stream

Either all of some writes fit, and the stream goes on behind them, or it gives out in one
of them and has taken what there was room for.
-/

theorem extract_zero_of_size_le {bytes : ByteArray} {count : Nat} (h : bytes.size ≤ count) :
    bytes.extract 0 count = bytes := by
  rw [<- Nat.max_eq_left h]
  exact ByteArray.extract_zero_max_size

theorem extract_zero_append_of_le {front : ByteArray} {count : Nat} (h : count ≤ front.size)
    (later : ByteArray) : (front ++ later).extract 0 count = front.extract 0 count := by
  have hlater : later.extract (0 - front.size) (count - front.size) = ByteArray.empty := by
    rw [ByteArray.extract_eq_empty_iff]
    omega
  rw [ByteArray.extract_append, hlater, ByteArray.append_empty]

theorem extract_zero_append_of_ge {front : ByteArray} {count : Nat} (h : front.size ≤ count)
    (later : ByteArray) :
    (front ++ later).extract 0 count = front ++ later.extract 0 (count - front.size) := by
  rw [ByteArray.extract_append, extract_zero_of_size_le h, Nat.zero_sub]

section Writes

variable {stream : Stream} {taken : ByteArray} {writes : List Write}

theorem putAfter_of_fits (later : List Write)
    (h : taken.size + (encode (written writes)).size ≤ stream.room) :
    stream.putAfter taken (writes ++ later) =
      stream.putAfter (taken ++ encode (written writes)) later := by
  induction writes generalizing taken with
  | nil =>
      rw [List.nil_append]
      congr 1
      exact ByteArray.append_empty.symm
  | cons write rest ih =>
      rw [encode_written_cons, ByteArray.size_append] at h
      have hwrite := write.toLine.size_eq
      rw [List.cons_append, Stream.putAfter, if_pos (by omega), ih, encode_written_cons,
        ByteArray.append_assoc]
      rw [ByteArray.size_append]
      omega

theorem putAfter_of_overflow {context : String} (later : List Write)
    (hcontext : forall write, write ∈ writes -> write.task = context)
    (htaken : taken.size ≤ stream.room)
    (h : stream.room < taken.size + (encode (written writes)).size) :
    stream.putAfter taken (writes ++ later) =
      ⟨(taken ++ encode (written writes)).extract 0 stream.room,
        some (.unwritten context stream.refusal)⟩ := by
  induction writes generalizing taken with
  | nil =>
      exact absurd h (Nat.not_lt_of_le htaken)
  | cons write rest ih =>
      rcases List.forall_mem_cons.mp hcontext with ⟨hfirst, hrest⟩
      have hwrite := write.toLine.size_eq
      rw [encode_written_cons, ByteArray.size_append] at h
      rw [List.cons_append, Stream.putAfter, encode_written_cons]
      by_cases hfits : taken.size + write.size ≤ stream.room
      · rw [if_pos hfits, ih hrest, ByteArray.append_assoc]
        · rw [ByteArray.size_append]
          omega
        · rw [ByteArray.size_append]
          omega
      · rw [if_neg hfits, hfirst, extract_zero_append_of_ge htaken,
          extract_zero_append_of_le (by omega)]

end Writes

/-!
## Calls as writes

A call is one write or, for a document, one write for every line. All of them have the
context of the call for their task.
-/

namespace Call

def writes : Call -> List Write
  | approval => Command.approval
  | faultyWord fault => [tokenFaultWrite fault]
  | brokenStructure fault => [lineWrite 0 fault.message (brokenStructure fault).context]
  | canonical rule => canonicalLine rule
  | node depth connective =>
      [lineWrite (2 * depth) connective.keyword (node depth connective).context]
  | recipient depth lone => [recipientWrite depth lone]
  | document rule =>
      rule.indentedJsonLines.map fun line => ⟨line, (document rule).context⟩
  | finalBreak => [⟨⟨0, "\n"⟩, finalBreak.context⟩]

@[simp] theorem written_writes (call : Call) : written call.writes = call.text := by
  cases call with
  | approval =>
      rfl
  | faultyWord fault =>
      simp [writes, tokenFaultWrite, text, String.append_assoc]
  | brokenStructure fault =>
      simp [writes, text]
  | canonical rule =>
      simp [writes, canonicalLine, text]
  | node depth connective =>
      rw [writes, written_single, rendered_lineWrite]
      rfl
  | recipient depth lone =>
      rw [writes, written_single, recipientWrite, rendered_lineWrite, <- String.append_assoc]
      rfl
  | document rule =>
      rw [writes, written, List.map_map]
      exact congrArg Text.renderAll (List.map_id _)
  | finalBreak =>
      rfl

theorem task_of_mem_writes {call : Call} {write : Write} (h : write ∈ call.writes) :
    write.task = call.context := by
  cases call with
  | document rule =>
      rcases List.mem_map.mp h with ⟨line, -, rfl⟩
      rfl
  | approval | faultyWord | brokenStructure | canonical | node | recipient | finalBreak =>
      exact congrArg Write.task (List.mem_singleton.mp h)

@[simp] theorem textOf_nil : textOf [] = "" := rfl

@[simp] theorem textOf_cons (call : Call) (later : List Call) :
    textOf (call :: later) = call.text ++ textOf later := by
  rw [textOf, List.map_cons, String.join_cons]
  rfl

theorem written_flatMap_writes (calls : List Call) :
    written (calls.flatMap writes) = textOf calls := by
  induction calls with
  | nil =>
      simp
  | cons call rest ih =>
      simp [ih]

end Call

/-!
## Calls on a stream
-/

section Calls

variable {stream : Stream} {taken : ByteArray} {calls : List Call}

theorem putAfter_calls_of_fits
    (h : taken.size + (encode (Call.textOf calls)).size ≤ stream.room) :
    stream.putAfter taken (calls.flatMap Call.writes) =
      ⟨taken ++ encode (Call.textOf calls), none⟩ := by
  rw [<- Call.written_flatMap_writes] at h ⊢
  have hputs := putAfter_of_fits [] h
  rw [List.append_nil] at hputs
  rw [hputs]
  rfl

/-- The call that a stream gives out in has the first refused byte in its text. -/
theorem putAfter_calls_of_overflow (htaken : taken.size ≤ stream.room)
    (h : stream.room < taken.size + (encode (Call.textOf calls)).size) :
    exists before call later,
      calls = before ++ call :: later ∧
        taken.size + (encode (Call.textOf before)).size ≤ stream.room ∧
          stream.room < taken.size + (encode (Call.textOf (before ++ [call]))).size ∧
            stream.putAfter taken (calls.flatMap Call.writes) =
              ⟨(taken ++ encode (Call.textOf calls)).extract 0 stream.room,
                some (.unwritten call.context stream.refusal)⟩ := by
  induction calls generalizing taken with
  | nil =>
      exact absurd h (Nat.not_lt_of_le htaken)
  | cons call rest ih =>
      rw [Call.textOf_cons, Text.encode_append, ByteArray.size_append] at h
      rw [List.flatMap_cons, Call.textOf_cons, Text.encode_append]
      by_cases hfits : taken.size + (encode call.text).size ≤ stream.room
      · have hsize : (taken ++ encode call.text).size = taken.size + (encode call.text).size :=
          ByteArray.size_append
        have hroom : (taken ++ encode call.text).size ≤ stream.room := hsize ▸ hfits
        rcases ih hroom (by omega) with
          ⟨before, blamed, later, rfl, hbefore, hblamed, hput⟩
        refine ⟨call :: before, blamed, later, rfl, ?_, ?_, ?_⟩
        · rw [Call.textOf_cons, Text.encode_append, ByteArray.size_append]
          omega
        · rw [List.cons_append, Call.textOf_cons, Text.encode_append, ByteArray.size_append]
          omega
        · rw [<- Call.written_writes] at hfits hput ⊢
          rw [putAfter_of_fits _ hfits, hput, ByteArray.append_assoc]
      · refine ⟨[], call, rest, rfl, htaken, ?_, ?_⟩
        · rw [List.nil_append, Call.textOf_cons, Text.encode_append, ByteArray.size_append]
          omega
        · have hreached : stream.room ≤ (taken ++ encode call.text).size := by
            rw [ByteArray.size_append]
            omega
          rw [<- ByteArray.append_assoc, extract_zero_append_of_le hreached]
          rw [<- Call.written_writes] at hfits ⊢
          exact putAfter_of_overflow _ (fun write => Call.task_of_mem_writes) htaken
            (Nat.lt_of_not_le hfits)

end Calls

section Onto

variable {execution : Execution} {calls : List Call}
  (hmade : execution.writes = calls.flatMap Call.writes) {stream : Stream}

include hmade

theorem onto_of_fits (h : (encode (Call.textOf calls)).size ≤ stream.room) :
    execution.onto stream = (encode (Call.textOf calls), execution.ending) := by
  have hput : stream.put execution.writes = ⟨encode (Call.textOf calls), none⟩ := by
    rw [hmade, Stream.put, putAfter_calls_of_fits, ByteArray.empty_append]
    rw [ByteArray.size_empty]
    omega
  simp only [Execution.onto, hput]

theorem onto_of_overflow (h : stream.room < (encode (Call.textOf calls)).size) :
    exists before call later,
      calls = before ++ call :: later ∧
        (encode (Call.textOf before)).size ≤ stream.room ∧
          stream.room < (encode (Call.textOf (before ++ [call]))).size ∧
            execution.onto stream =
              ((encode (Call.textOf calls)).extract 0 stream.room,
                .error (.unwritten call.context stream.refusal)) := by
  have hempty : ByteArray.empty.size ≤ stream.room := Nat.zero_le stream.room
  have hover : stream.room < ByteArray.empty.size + (encode (Call.textOf calls)).size := by
    rwa [ByteArray.size_empty, Nat.zero_add]
  rcases putAfter_calls_of_overflow hempty hover with
    ⟨before, call, later, hcalls, hbefore, hcall, hput⟩
  rw [ByteArray.size_empty, Nat.zero_add] at hbefore hcall
  refine ⟨before, call, later, hcalls, hbefore, hcall, ?_⟩
  rw [ByteArray.empty_append, <- Stream.put, <- hmade] at hput
  simp only [Execution.onto, hput]

end Onto

/-!
## The calls of a run
-/

/-- The output of an execution is made of calls of one action. -/
def MadeOf (action : Action) (calls : List Call) (writes : List Write) : Prop :=
  (forall call, call ∈ calls -> call.action = action) ∧ writes = calls.flatMap Call.writes

theorem madeOf_nothing (action : Action) : MadeOf action [] [] :=
  ⟨List.forall_mem_nil _, rfl⟩

theorem madeOf_single (call : Call) : MadeOf call.action [call] call.writes :=
  ⟨List.forall_mem_singleton.mpr rfl, (List.flatMap_singleton Call.writes call).symm⟩

theorem madeOf_reporting (fault : Expression.Fault) :
    MadeOf .check (Call.reporting fault) (rejection fault) := by
  cases fault with
  | badTokens faults =>
      constructor
      · intro call hcall
        rcases List.mem_map.mp hcall with ⟨fault, -, rfl⟩
        rfl
      · rw [rejection, Call.reporting, List.flatMap_map]
        exact List.map_eq_flatMap
  | noTokens | missingOperands | unjoinedOperands | tooDeep =>
      exact madeOf_single (.brokenStructure _)

theorem madeOf_outlining (rule : Rule) : MadeOf .tree (Call.outlining rule) (outline rule) := by
  constructor
  · intro call hcall
    rcases List.mem_flatMap.mp hcall with ⟨row, -, hrow⟩
    rcases List.mem_cons.mp hrow with rfl | hrecipient
    · rfl
    · rcases List.mem_map.mp hrecipient with ⟨lone, -, rfl⟩
      rfl
  · rw [outline, Call.outlining, List.flatMap_assoc]
    apply List.flatMap_congr
    intro row _
    rw [rowWrites, List.flatMap_cons, List.flatMap_map, List.map_eq_flatMap]
    rfl

theorem madeOf_showing (json : Bool) (rule : Rule) :
    MadeOf .tree (Call.showing json rule) (treeWrites json rule) := by
  cases json with
  | false =>
      exact madeOf_outlining rule
  | true =>
      refine ⟨?_, rfl⟩
      intro call hcall
      rcases List.mem_cons.mp hcall with rfl | hlast
      · rfl
      · rw [List.mem_singleton.mp hlast]
        rfl

theorem madeOf_callsOf (invocation : Invocation) (settings : Settings) (around : Surroundings) :
    MadeOf invocation.action (callsOf invocation settings around)
      (run invocation settings around).writes := by
  unfold callsOf run
  cases expressionText invocation.words around.input with
  | error failure =>
      exact madeOf_nothing _
  | ok text =>
      simp only
      cases invocation.action with
      | check =>
          simp only [runCheck]
          cases Expression.parse settings.limit text with
          | ok rule =>
              exact madeOf_single .approval
          | error fault =>
              exact madeOf_reporting fault
      | canonical =>
          simp only [runCanonical, withRule]
          cases Expression.parse settings.limit text with
          | ok rule =>
              exact madeOf_single (.canonical rule.normalForm)
          | error fault =>
              exact madeOf_nothing .canonical
      | tree =>
          simp only [runTree, withRule]
          cases Expression.parse settings.limit text with
          | error fault =>
              exact madeOf_nothing .tree
          | ok rule =>
              cases invocation.names with
              | none =>
                  exact madeOf_showing invocation.json rule.normalForm
              | some path =>
                  simp only
                  cases readNames around.file path with
                  | error failure =>
                      exact madeOf_nothing .tree
                  | ok book =>
                      exact madeOf_showing invocation.json (rule.normalForm.named book.naming)

/-- The output of a run is made of calls of its action. On a stream that gives out, just the
bytes that there is room for are taken. If that is all of them, the run ends as it would on
any stream. If not, it fails with the context of the call that the first refused byte belongs
to, and with the text of the refusal behind it. -/
theorem limited_stream_takes_prefix_and_blames_call (invocation : Invocation)
    (settings : Settings) (around : Surroundings) :
    (forall call,
      call ∈ callsOf invocation settings around -> call.action = invocation.action) ∧
      written (run invocation settings around).writes =
        Call.textOf (callsOf invocation settings around) ∧
        forall stream : Stream,
          let whole := encode (written (run invocation settings around).writes)
          let result := (run invocation settings around).onto stream
          result.1 = whole.extract 0 (min stream.room whole.size) ∧
            (whole.size ≤ stream.room -> result.2 = (run invocation settings around).ending) ∧
              (stream.room < whole.size ->
                exists before call later failure,
                  callsOf invocation settings around = before ++ call :: later ∧
                    (encode (Call.textOf before)).size ≤ stream.room ∧
                      stream.room < (encode (Call.textOf (before ++ [call]))).size ∧
                        result.2 = .error failure ∧
                          failure.chain = [call.context, stream.refusal]) := by
  rcases madeOf_callsOf invocation settings around with ⟨hactions, hwrites⟩
  have hwritten : written (run invocation settings around).writes =
      Call.textOf (callsOf invocation settings around) := by
    rw [hwrites, Call.written_flatMap_writes]
  refine ⟨hactions, hwritten, ?_⟩
  rw [hwritten]
  intro stream whole result
  rcases Nat.lt_or_ge stream.room whole.size with hover | hfits
  · rcases onto_of_overflow hwrites hover with
      ⟨before, call, later, hcalls, hbefore, hcall, honto⟩
    have hresult : result = (whole.extract 0 stream.room, _) := honto
    rw [hresult, Nat.min_eq_left (Nat.le_of_lt hover)]
    refine ⟨rfl, fun hfits => absurd hover (Nat.not_lt_of_le hfits), ?_⟩
    intro _
    exact ⟨before, call, later, _, hcalls, hbefore, hcall, rfl, rfl⟩
  · have hresult : result = (whole, _) := onto_of_fits hwrites hfits
    rw [hresult, Nat.min_eq_right hfits]
    refine ⟨ByteArray.extract_zero_size.symm, fun _ => rfl, ?_⟩
    intro hover
    exact absurd hover (Nat.not_lt_of_le hfits)

/-- The stream gives out at the line break behind a recipient of the outline. -/
theorem limited_stream_takes_prefix_and_blames_call_of_outline :
    exists (invocation : Invocation) (settings : Settings) (around : Surroundings)
        (before later : List Call) (call : Call) (failure : Failure),
      written (run invocation settings around).writes =
          "OR\n  U:c\n  AND\n    U:a\n    U:b\n" ∧
        Call.textOf (callsOf invocation settings around) =
            "OR\n  U:c\n  AND\n    U:a\n    U:b\n" ∧
          8 < (encode (written (run invocation settings around).writes)).size ∧
            callsOf invocation settings around = before ++ call :: later ∧
              (encode (Call.textOf before)).size ≤ 8 ∧
                8 < (encode (Call.textOf (before ++ [call]))).size ∧
                  ((run invocation settings around).onto ⟨8, "sink full"⟩).1 =
                      (encode "OR\n  U:c\n  AND\n    U:a\n    U:b\n").extract 0 8 ∧
                    ((run invocation settings around).onto ⟨8, "sink full"⟩).2 =
                        .error failure ∧
                      failure.chain = [call.context, "sink full"] ∧
                        call.context = "failed to write recipient U:c" := by
  have hwritten : written (run ⟨.tree, none, none, none, false, ["U:a U:b", "AND U:c OR"]⟩
      ⟨.warn, 2⟩ ⟨ByteArray.empty, fun _ => .error .missing⟩).writes =
        "OR\n  U:c\n  AND\n    U:a\n    U:b\n" := by decide +kernel
  have hput : (Stream.put ⟨8, "sink full"⟩
      (run ⟨.tree, none, none, none, false, ["U:a U:b", "AND U:c OR"]⟩ ⟨.warn, 2⟩
        ⟨ByteArray.empty, fun _ => .error .missing⟩).writes).failure =
        some (.unwritten "failed to write recipient U:c" "sink full") := by decide +kernel
  have hover : 8 < (encode "OR\n  U:c\n  AND\n    U:a\n    U:b\n").size := by decide
  rcases limited_stream_takes_prefix_and_blames_call
      ⟨.tree, none, none, none, false, ["U:a U:b", "AND U:c OR"]⟩ ⟨.warn, 2⟩
      ⟨ByteArray.empty, fun _ => .error .missing⟩ with ⟨-, htext, hstream⟩
  rcases hstream ⟨8, "sink full"⟩ with ⟨htaken, -, hblame⟩
  rw [hwritten] at htaken hblame
  rcases hblame hover with
    ⟨before, call, later, failure, hcalls, hbefore, hcall, hfailure, hchain⟩
  have hcontext : call.context = "failed to write recipient U:c" := by
    simp only [Execution.onto, hput] at hfailure
    cases hfailure
    exact (List.cons.inj hchain).1.symm
  refine ⟨_, _, _, before, later, call, failure, hwritten, htext.symm.trans hwritten, ?_,
    hcalls, hbefore, hcall, ?_, hfailure, hchain, hcontext⟩
  · rw [hwritten]
    exact hover
  · exact htaken.trans (by rw [Nat.min_eq_left (Nat.le_of_lt hover)])

end Command
end AccessRules
