import ClassLang.Proofs.Machine.Chronicle
import ClassLang.Proofs.Machine.DepthLimit

/-!
# Output and sinks that are full

A run writes values on lines of their own, one after the other, and never takes anything back. A
sink of limited size keeps what there is room for. The first line that it cannot keep as a whole is
the last one: the run fails there, whatever it is in the middle of, and nothing else is written.

* `ClassLang.Eval.Performs.takes_or_full` says so for all evaluations, along their operations.
* `ClassLang.Coupling.limitedSink` compares a run on a limited sink with the same run on a sink that
  takes everything. They are in step until the first sink is full; then it has taken the beginning
  of what the other one will have.
-/

namespace ClassLang

/-! ### Bytes -/

theorem extract_zero_of_size_le {bytes : ByteArray} {n : Nat} (h : bytes.size ≤ n) :
    bytes.extract 0 n = bytes := by
  apply ByteArray.ext
  rw [ByteArray.data_extract]
  simp [h]

theorem extract_zero_append {bytes : ByteArray} {n : Nat} (h : n ≤ bytes.size) (more : ByteArray) :
    (bytes ++ more).extract 0 n = bytes.extract 0 n := by
  rw [ByteArray.extract_append, Nat.sub_eq_zero_of_le h, Nat.zero_sub, ByteArray.extract_same,
    ByteArray.append_empty]

/-! ### Lines -/

theorem Value.size_line_pos (value : Value) : 0 < value.line.size := by
  change 0 < (value.display ++ "\n").utf8ByteSize
  rw [String.utf8ByteSize_append]
  exact Nat.succ_pos _

/-- What is written when values are printed one after the other. -/
def Value.lines : List Value → ByteArray
  | [] => .empty
  | value :: rest => value.line ++ Value.lines rest

namespace Sink

variable {s : Sink}

theorem written_write_of_fits {bytes : ByteArray} (h : s.fits bytes = true) :
    (s.write bytes).written = s.written ++ bytes := by
  unfold fits at h
  unfold write
  cases hlimit : s.limit with
  | none => rfl
  | some limit =>
    rw [hlimit] at h
    have hle : bytes.size ≤ limit - s.written.size := by
      have := of_decide_eq_true h
      omega
    dsimp only
    rw [extract_zero_of_size_le hle]

theorem limit_write (s : Sink) (bytes : ByteArray) : (s.write bytes).limit = s.limit := by
  unfold write
  cases s.limit <;> rfl

/-- The sink after values have been printed. -/
def printAll (s : Sink) (values : List Value) : Sink :=
  values.foldl (fun s value => s.write value.line) s

theorem printAll_append (s : Sink) (values more : List Value) :
    s.printAll (values ++ more) = (s.printAll values).printAll more :=
  List.foldl_append

theorem limit_printAll (s : Sink) (values : List Value) : (s.printAll values).limit = s.limit := by
  induction values generalizing s with
  | nil => rfl
  | cons value rest ih => exact (ih _).trans (s.limit_write value.line)

/-- Whether the sink has room for each value that is printed. -/
def takes (s : Sink) : List Value → Bool
  | [] => true
  | value :: rest => s.fits value.line && (s.write value.line).takes rest

theorem takes_append (s : Sink) (values more : List Value) :
    s.takes (values ++ more) = (s.takes values && (s.printAll values).takes more) := by
  induction values generalizing s with
  | nil => rfl
  | cons value rest ih =>
    rw [List.cons_append, takes, takes, ih, Bool.and_assoc]
    rfl

/-- A sink that has room for all values has them as whole lines. -/
theorem written_printAll_of_takes {values : List Value} (h : s.takes values = true) :
    (s.printAll values).written = s.written ++ Value.lines values := by
  induction values generalizing s with
  | nil => exact ByteArray.append_empty.symm
  | cons value rest ih =>
    obtain ⟨hfits, hrest⟩ := Bool.and_eq_true_iff.mp h
    calc ((s.write value.line).printAll rest).written
        = (s.write value.line).written ++ Value.lines rest := ih hrest
      _ = s.written ++ value.line ++ Value.lines rest := by rw [written_write_of_fits hfits]
      _ = s.written ++ Value.lines (value :: rest) := ByteArray.append_assoc

/-- A sink that is full keeps the part of a write that there is room for. -/
theorem exists_written_write_of_full {bytes : ByteArray} (hpos : 0 < bytes.size)
    (h : s.fits bytes = false) :
    ∃ limit, s.limit = some limit ∧ limit - s.written.size < bytes.size ∧
      (s.write bytes).written = s.written ++ bytes.extract 0 (limit - s.written.size) := by
  unfold fits at h
  unfold write
  cases hlimit : s.limit with
  | none =>
    rw [hlimit] at h
    cases h
  | some limit =>
    rw [hlimit] at h
    have hlt : ¬s.written.size + bytes.size ≤ limit := of_decide_eq_false h
    exact ⟨limit, rfl, by omega, rfl⟩

/-- A sink that has room for all values but the last one. -/
def Overflows (s : Sink) (printed : List Value) : Prop :=
  ∃ (values : List Value) (last : Value), printed = values ++ [last] ∧ s.takes values = true ∧
    (s.printAll values).fits last.line = false

/-- **A sink that is full**: `t` has all the values that were printed to `s` as whole lines, but for
the last one, of which it has what there was room for. -/
def CutOff (s t : Sink) (printed : List Value) : Prop :=
  ∃ (values : List Value) (last : Value) (limit kept : Nat), printed = values ++ [last] ∧
    s.limit = some limit ∧ kept = limit - (s.written ++ Value.lines values).size ∧
    kept < last.line.size ∧ t.written = s.written ++ Value.lines values ++ last.line.extract 0 kept

theorem Overflows.cutOff {printed : List Value} (h : s.Overflows printed) :
    s.CutOff (s.printAll printed) printed := by
  obtain ⟨values, last, rfl, htakes, hfull⟩ := h
  obtain ⟨limit, hlimit, hkept, hwritten⟩ := exists_written_write_of_full last.size_line_pos hfull
  rw [written_printAll_of_takes htakes] at hkept hwritten
  rw [limit_printAll] at hlimit
  refine ⟨values, last, limit, _, rfl, hlimit, rfl, hkept, ?_⟩
  rw [printAll_append]
  exact hwritten

theorem Overflows.append {values more : List Value} (htakes : s.takes values = true)
    (h : (s.printAll values).Overflows more) : s.Overflows (values ++ more) := by
  obtain ⟨first, last, rfl, hfirst, hlast⟩ := h
  refine ⟨values ++ first, last, (List.append_assoc _ _ _).symm, ?_, ?_⟩
  · rw [takes_append, htakes, hfirst]
    rfl
  · rw [printAll_append]
    exact hlast

end Sink

/-! ### What a run prints -/

namespace Operation

/-- The value that an operation prints. -/
def printed? : Operation → Option Value
  | print value => some value
  | _ => none

/-- The values that operations print, in their order. -/
def printed (ops : List Operation) : List Value := ops.filterMap printed?

theorem printed_append (ops more : List Operation) :
    printed (ops ++ more) = printed ops ++ printed more :=
  List.filterMap_append

/-- Opening and closing a block or a call prints nothing. -/
theorem printed_enclosed {opening closing : Operation} (hopening : opening.printed? = none)
    (hclosing : closing.printed? = none) (ops : List Operation) :
    printed (opening :: ops ++ [closing]) = printed ops := by
  unfold printed
  rw [List.cons_append, List.filterMap_cons_none hopening, List.filterMap_append,
    List.filterMap_cons_none hclosing, List.filterMap_nil, List.append_nil]

end Operation

namespace Machine

theorem sink_perform (m : Machine) (op : Operation) :
    (m.perform op).sink = m.sink.printAll op.printed?.toList := by
  cases op with
  | assign name value holder => cases holder <;> rfl
  | define name value =>
    obtain ⟨globals, active, hdefine⟩ := m.define_eq name value
    rw [perform, hdefine]
    rfl
  | register decl =>
    obtain ⟨journal, hregister⟩ := m.register_eq decl
    rw [perform, hregister]
    rfl
  | setField | allocate | print | record | openBlock | closeBlock | openCall | closeCall | flush =>
    rfl

/-- **Output is append-only**: the sink has what was printed, in order. -/
theorem sink_performAll (m : Machine) (ops : List Operation) :
    (m.performAll ops).sink = m.sink.printAll (Operation.printed ops) := by
  induction ops generalizing m with
  | nil => rfl
  | cons op rest ih =>
    rw [performAll_cons, ih, sink_perform, ← Sink.printAll_append]
    unfold Operation.printed
    rw [List.filterMap_cons]
    cases op.printed? <;> rfl

end Machine

namespace Eval

variable {α β : Type} {x : Eval α} {m : Machine} {ops : List Operation}

/-- An evaluation that is stopped because the sink is full. -/
def Stopped (x : Eval α) (m : Machine) : Prop := ∃ m', x m = .error (.sink .full) m'

theorem Stopped.bind (h : Stopped x m) (f : α → Eval β) : Stopped (x >>= f) m := by
  obtain ⟨m', hm'⟩ := h
  exact ⟨m', by simp only [Bind.bind, EStateM.bind, hm']⟩

theorem Stopped.inBlock (h : Stopped x m.openBlock) : Stopped (inBlock x) m := by
  obtain ⟨m', hm'⟩ := h
  exact ⟨m'.closeBlock, by rw [Eval.inBlock, hm']; rfl⟩

theorem Stopped.activate {ref : Object} {frame : Frame} (h : Stopped x (m.openCall ref frame)) :
    Stopped (activate ref frame x) m := by
  obtain ⟨m', hm'⟩ := h
  exact ⟨m'.closeCall m.active, by rw [Eval.activate, hm']; rfl⟩

theorem stopped_printLine {value : Value} (h : m.sink.fits value.line = false) :
    Stopped (printLine value.display) m := by
  refine ⟨{ m with sink := m.sink.write value.line }, ?_⟩
  unfold Value.line at h ⊢
  simp only [printLine, Sink.writeFault?_of_not_fits h, Sink.writer_write]

/-- **The sink takes all that is printed, or the evaluation is stopped** at the line that the sink
cannot take as a whole. -/
theorem Performs.takes_or_full (h : Performs x m ops) :
    m.sink.takes (Operation.printed ops) = true ∨
      m.sink.Overflows (Operation.printed ops) ∧ Stopped x m := by
  induction h with
  | look | assign | unassigned | define | setField | allocate | record | recordCall | register =>
    exact .inl rfl
  | print m value =>
    cases hfits : m.sink.fits value.line with
    | true => exact .inl (Bool.and_eq_true_iff.mpr ⟨hfits, rfl⟩)
    | false => exact .inr ⟨⟨[], value, rfl, rfl, hfits⟩, stopped_printLine hfits⟩
  | @next _ _ x f a m m' ops more hx first rest ihfirst ihrest =>
    -- What comes first has a value, so it has not been stopped.
    have htakes : m.sink.takes (Operation.printed ops) = true := by
      rcases ihfirst with htakes | ⟨-, m'', hstopped⟩
      · exact htakes
      · rw [hx] at hstopped
        cases hstopped
    have hm' : m'.sink = m.sink.printAll (Operation.printed ops) := by
      rw [← Machine.sink_performAll, ← first.after_eq, EvalOn.after, hx]
    rw [hm'] at ihrest
    rw [Operation.printed_append]
    rcases ihrest with hrest | ⟨hover, m'', hstopped⟩
    · exact .inl (by rw [Sink.takes_append, htakes, hrest]; rfl)
    · exact .inr ⟨hover.append htakes, m'', by simp only [Bind.bind, EStateM.bind, hx, hstopped]⟩
  | halted hx first ih =>
    rcases ih with htakes | ⟨hover, hstopped⟩
    · exact .inl htakes
    · exact .inr ⟨hover, hstopped.bind _⟩
  | @inBlock _ body m ops inside ih =>
    rw [Operation.printed_enclosed rfl rfl]
    rcases ih with htakes | ⟨hover, hstopped⟩
    · exact .inl htakes
    · exact .inr ⟨hover, hstopped.inBlock⟩
  | @activate _ body ref frame m ops inside ih =>
    rw [Operation.printed_enclosed rfl rfl]
    rcases ih with htakes | ⟨hover, hstopped⟩
    · exact .inl htakes
    · exact .inr ⟨hover, hstopped.activate⟩

end Eval

/-! ### Limited and unlimited sinks -/

/-- The machine with another limit on its sink. -/
def Machine.withRoom (m : Machine) (limit : Option Nat) : Machine :=
  { m with sink := { m.sink with limit } }

namespace Coupling

/-- The comparison of a run whose sink takes so many bytes in all with one whose sink takes
everything. -/
def limitedSink (n : Nat) : Coupling :=
  { moreTurns with
    longer := False
    sinks := fun s t => s.limit = some n ∧ s.written.size ≤ n ∧ t = { s with limit := none }
    stops := fun halt => halt = .sink .full
    behind := fun s t => t.limit = none ∧ n < t.written.size ∧ s.written = t.written.extract 0 n
    stops_callDepth := fun h => h.elim
    stops_outOfFuel := fun h => h.elim
    behind_of_sinks := fun h => (h.elim id id).elim
    behind_write := by
      rintro s t bytes ⟨hlimit, hsize, hwritten⟩
      have hwrite : t.write bytes = { t with written := t.written ++ bytes } := by
        rw [Sink.write, hlimit]
      rw [Sink.writer_write, hwrite]
      refine ⟨hlimit, ?_, ?_⟩
      · rw [ByteArray.size_append]
        omega
      · rw [extract_zero_append (Nat.le_of_lt hsize), hwritten]
    behind_flush := fun h => h
    flush := by
      rintro s t ⟨hlimit, hsize, rfl⟩
      exact ⟨rfl, hlimit, hsize, rfl⟩
    write := by
      rintro s t bytes ⟨hlimit, hsize, rfl⟩
      have hwrite : s.write bytes =
          { s with written := s.written ++ bytes.extract 0 (n - s.written.size) } := by
        rw [Sink.write, hlimit]
      have hfits : s.fits bytes = decide (s.written.size + bytes.size ≤ n) := by
        rw [Sink.fits, hlimit]
      by_cases hroom : s.written.size + bytes.size ≤ n
      · have hall : bytes.extract 0 (n - s.written.size) = bytes :=
          extract_zero_of_size_le (by omega)
        rw [Sink.writeFault?_of_fits (hfits.trans (decide_eq_true hroom)), Sink.writer_write,
          hwrite, hall]
        refine .inl ⟨rfl, hlimit, ?_, rfl⟩
        rwa [ByteArray.size_append]
      · rw [Sink.writeFault?_of_not_fits (hfits.trans (decide_eq_false hroom)), Sink.writer_write,
          hwrite]
        refine .inr ⟨_, rfl, rfl, rfl, ?_, ?_⟩
        · change n < (s.written ++ bytes).size
          rw [ByteArray.size_append]
          omega
        · change _ = (s.written ++ bytes).extract 0 n
          rw [ByteArray.extract_append, extract_zero_of_size_le hsize, Nat.zero_sub] }

theorem plain_limitedSink (n : Nat) : (limitedSink n).Plain := ⟨rfl, rfl⟩

end Coupling

namespace Machine

/-- **A run on a limited sink beside the run on an unlimited one**: both write the same and end with
the same outcome, or the limited sink is full and has the beginning of what the other one has. -/
theorem run_withRoom (m : Machine) {n : Nat} (h : m.sink.written.size ≤ n) (turns : Nat)
    (l : List Declaration) :
    let limited := (m.withRoom (some n)).run turns l
    let free := (m.withRoom none).run turns l
    limited.2.sink.written = free.2.sink.written.extract 0 n ∧
      limited.1 =
        if free.2.sink.written.size ≤ n then free.1 else .failed (.io SinkFault.full.text) := by
  intro limited free
  have hstep : (Coupling.limitedSink n).InStep (m.withRoom (some n)) (m.withRoom none) :=
    Coupling.inStep_self (m := m.withRoom (some n)) (Coupling.plain_limitedSink n) ⟨rfl, h, rfl⟩ rfl
      rfl rfl (.inr rfl)
  have hrun := Coupling.run hstep (.inl rfl : (Coupling.limitedSink n).Turns turns turns)
    (.inl rfl) l
  rw [(Coupling.plain_limitedSink n).map_declaration, (Coupling.plain_limitedSink n).place,
    Coupling.outcome_relocate_id] at hrun
  rcases hrun with ⟨houtcome, hafter⟩ | ⟨halt, rfl, houtcome, -, hsize, hwritten⟩
  · obtain ⟨-, hsize, hsink⟩ := hafter.sinks
    have hsame : free.2.sink.written = limited.2.sink.written := (congrArg Sink.written hsink :)
    rw [hsame, if_pos hsize, houtcome, extract_zero_of_size_le hsize]
    exact ⟨rfl, rfl⟩
  · rw [if_neg (Nat.not_le_of_lt hsize)]
    exact ⟨hwritten, houtcome⟩

/-- A run whose program is stopped ends with the error of its sink. -/
theorem run_of_stopped {m : Machine} {turns : Nat} {l : List Declaration}
    (h : Eval.Stopped (Eval.programWith (m.calls turns) turns l) m) :
    (m.run turns l).1 = .failed (.io SinkFault.full.text) := by
  obtain ⟨m', hm'⟩ := h
  have hprogram : Eval.program turns l m = .error (.sink .full) m' := hm'
  rw [run, hprogram]
  rfl

end Machine

/-- **Output during a run.** At each point of a run, the sink has got whole lines in addition to
what was in it before, or the last line has been cut off where the sink is full. In that case
nothing is printed from then on, and the run ends with the error of the sink. -/
theorem Eval.Performs.takes_or_cutOff {m : Machine} {turns : Nat} {l : List Declaration}
    {done rest : List Operation}
    (h : Performs (programWith (m.calls turns) turns l) m (done ++ rest)) :
    (m.performAll done).sink.written = m.sink.written ++ Value.lines (Operation.printed done) ∨
    m.sink.CutOff (m.performAll done).sink (Operation.printed done) ∧ Operation.printed rest = [] ∧
      (m.run turns l).1 = .failed (.io SinkFault.full.text) := by
  have hwhole : m.sink.takes (Operation.printed done) = true →
      (m.performAll done).sink.written =
        m.sink.written ++ Value.lines (Operation.printed done) := by
    intro htakes
    rw [Machine.sink_performAll, Sink.written_printAll_of_takes htakes]
  have hprinted := Operation.printed_append done rest
  rcases h.takes_or_full with htakes | ⟨hover, hstopped⟩
  · rw [hprinted, Sink.takes_append] at htakes
    exact .inl (hwhole (Bool.and_eq_true_iff.mp htakes).1)
  rw [hprinted] at hover
  -- The line that is cut off has been printed already, or is still to come.
  rcases List.eq_nil_or_concat (Operation.printed rest) with hrest | ⟨later, final, hrest⟩
  · rw [hrest, List.append_nil] at hover
    rw [Machine.sink_performAll]
    exact .inr ⟨hover.cutOff, hrest, Machine.run_of_stopped hstopped⟩
  · obtain ⟨values, last, hvalues, htakes, -⟩ := hover
    rw [hrest, List.concat_eq_append, ← List.append_assoc] at hvalues
    obtain ⟨rfl, -⟩ := List.append_inj' hvalues rfl
    rw [Sink.takes_append] at htakes
    exact .inl (hwhole (Bool.and_eq_true_iff.mp htakes).1)

/-- Operations only add to what has been written. -/
theorem Machine.exists_written_performAll (m : Machine) (ops : List Operation) :
    ∃ bytes, (m.performAll ops).sink.written = m.sink.written ++ bytes := by
  rw [sink_performAll]
  generalize m.sink = s
  induction Operation.printed ops generalizing s with
  | nil => exact ⟨.empty, ByteArray.append_empty.symm⟩
  | cons value rest ih =>
    obtain ⟨first, hfirst⟩ := s.exists_written_write value.line
    obtain ⟨more, hmore⟩ := ih (s.write value.line)
    exact ⟨first ++ more, hmore.trans (by rw [hfirst, ByteArray.append_assoc])⟩

/-- **Output is cut exactly where the sink is full.** Let a program end on a sink that takes
everything. On a sink that takes `n` bytes in all it ends as well, and the sink then has the first
`n` bytes of what the other one has. The outcome is the same if there are no more than these, and
otherwise it is the error of the sink. And at each point of any run, on whatever sink, output only
grows. It consists of whole lines, one for each value that was printed, until the first one that the
sink cannot take as a whole. After that nothing is printed, the sink stays as it is, and the run
ends with the error of the sink. -/
theorem output_cut_where_full (m : Machine) (l : List Declaration) :
    (∀ {n : Nat} {outcome : Outcome} {after : Machine}, m.sink.written.size ≤ n →
      (m.withRoom none).Ends l outcome after →
      ∃ after' : Machine, after'.sink.written = after.sink.written.extract 0 n ∧
        (m.withRoom (some n)).Ends l
          (if after.sink.written.size ≤ n then outcome else .failed (.io SinkFault.full.text))
          after') ∧
    ∀ turns : Nat, let program := Eval.programWith (m.calls turns) turns l
      (∃ ops, Eval.Performs program m ops ∧ (m.run turns l).2 = m.performAll ops) ∧
      ∀ done rest : List Operation, Eval.Performs program m (done ++ rest) →
        let p := m.performAll done
        (∀ more, ∃ bytes, (p.performAll more).sink.written = p.sink.written ++ bytes) ∧
        (p.sink.written = m.sink.written ++ Value.lines (Operation.printed done) ∨
          m.sink.CutOff p.sink (Operation.printed done) ∧ Operation.printed rest = [] ∧
          (m.run turns l).2.sink = p.sink ∧
          (m.run turns l).1 = .failed (.io SinkFault.full.text)) := by
  refine ⟨?_, fun turns => ⟨?_, fun done rest h => ⟨?_, ?_⟩⟩⟩
  · rintro n outcome after hroom ⟨hended, turns, hrun⟩
    obtain ⟨hwritten, houtcome⟩ := m.run_withRoom hroom turns l
    rw [hrun] at hwritten houtcome
    refine ⟨_, hwritten, ?_, turns, Prod.ext houtcome rfl⟩
    split
    · exact hended
    · exact nofun
  · obtain ⟨ops, hops⟩ := Eval.itemized_programWith turns m.settings.maxCallDepth l m
    exact ⟨ops, hops, (m.run_snd turns l).trans hops.after_eq⟩
  · exact fun more => Machine.exists_written_performAll _ more
  · rcases h.takes_or_cutOff with hwhole | ⟨hcut, hnone, houtcome⟩
    · exact .inl hwhole
    refine .inr ⟨hcut, hnone, ?_, houtcome⟩
    have hafter : (m.run turns l).2 = m.performAll (done ++ rest) :=
      (m.run_snd turns l).trans h.after_eq
    rw [hafter, Machine.performAll_append, Machine.sink_performAll, hnone]
    rfl

/-- Two lines of three bytes, on a sink that takes four. -/
theorem output_cut_where_full_second_line :
    let source :=
      "class Main \x7b void main() \x7b System.out.println(12); System.out.println(34); \x7d \x7d"
    let l := (parseSource source).declarations
    let m := Machine.start .standard .unlimited (.atLevel none)
    (∃ after, (m.withRoom none).Ends l .finished after ∧
      after.sink.written = "12\n34\n".toUTF8) ∧
    ∃ after', (m.withRoom (some 4)).Ends l (.failed (.io "sink full")) after' ∧
      after'.sink.written = "12\n3".toUTF8 := by
  intro source l m
  have hrun : ((m.withRoom none).run 0 l).1 = .finished ∧
      ((m.withRoom none).run 0 l).2.sink.written = "12\n34\n".toUTF8 := by decide +kernel
  obtain ⟨hfinished, hwritten⟩ := hrun
  have hends : (m.withRoom none).Ends l .finished ((m.withRoom none).run 0 l).2 :=
    hfinished ▸ Machine.ends_of_run (hfinished ▸ nofun)
  obtain ⟨after', hcut, hends'⟩ := (output_cut_where_full m l).1 (n := 4) (by decide) hends
  rw [hwritten] at hcut hends'
  exact ⟨⟨_, hends, hwritten⟩, after', hends', hcut.trans (by decide +kernel)⟩

end ClassLang
