import Trace0.ControlSteps

namespace Trace0

namespace Stand

-- The message taken and not in `handled` yet, the one with its dump finished but not in
-- `handled` yet, and the acknowledgement still to be sent.
def taken : Stand T → List (Sent T)
  | .handling order _ .begun | .handling order _ .gathering | .handling order _ (.writing _)
  | .handling order _ (.dumped _) | .failed order => [order]
  | _ => []

def dumped : Stand T → List (Sent T)
  | .handling order _ (.dumped _) => [order]
  | _ => []

def owed : Stand T → List (Nat × String)
  | .handling order _ (.dumped path) | .handling order _ (.windowed path)
  | .handling order _ (.flooring path) | .handling order _ (.acking path) =>
    (order.msg.done.map (·,path)).toList
  | _ => []

def Fits (sinks : Sinks) (made : Nat) : Stand T → Prop
  | .handling order _ .gathering | .handling order _ (.dumped _) => order.msg.asks.isSome = true
  | .handling order _ (.writing run) => order.msg.asks.isSome = true ∧ run.order = order ∧
      run.path = (sinks made order.msg.reason).path
  | .failed order => order.msg.asks.isSome = true ∧ (sinks made order.msg.reason).failsAt ≠ none
  | _ => True

end Stand

def DumpRun.ack (d : DumpRun T) : Option (Nat × String) := d.order.msg.done.map (·,d.path)

namespace RunRecorder

variable {T : Type} [DecidableEq T]

def asking (order : Sent T) : Bool := order.msg.asks.isSome

-- Every message is waiting, at hand or handled, in the order they were sent, and every dump
-- asked for up to here is finished and acknowledged, or about to be.
structure Tallied (sinks : Sinks) (r : RunRecorder T) : Prop where
  sent : r.handled.map (·.1) ++ (r.stand.taken ++ r.control) = r.sent
  dumps : r.dumps.map (·.order) = (r.handled.map (·.1)).filter asking ++ r.stand.dumped
  acks : r.acks ++ r.stand.owed = r.dumps.filterMap DumpRun.ack
  works : ∀ k d, r.dumps[k]? = some d →
    (sinks k d.order.msg.reason).failsAt = none ∧ d.path = (sinks k d.order.msg.reason).path
  written : ∀ d ∈ r.dumps, d.written.flatten = d.events
  fits : r.stand.Fits sinks r.dumps.length

-- Every message is sent before the queue is closed.
def Prompt (r : RunRecorder T) : RunAct T → Prop
  | .send _ => r.recorder.world.queue.closed = false
  | _ => True

def testsPrompt (r : RunRecorder Unit) : RunAct Unit → Bool
  | .send _ => !r.recorder.world.queue.closed
  | _ => true

theorem testsPrompt_meets (r : RunRecorder Unit) (act : RunAct Unit) (checked : testsPrompt r act = true) :
    Prompt r act := by
  cases act with
  | send msg =>
    have open_ : r.recorder.world.queue.closed = false := by simpa [testsPrompt] using checked
    exact open_
  | _ => trivial

structure Shut (r : RunRecorder T) : Prop where
  closed : r.stand.last = true → r.recorder.world.queue.closed = true
  empty : r.stand = .returned → r.control = []

-- A dump being gathered is the one its message asks for, and of one being written nothing
-- gets lost between the chunks.
structure Poised (r : RunRecorder T) : Prop where
  gathering : ∀ order last, r.stand = .handling order last .gathering →
    ∃ start end_ rest, order.msg.asks = some (start,end_,rest) ∧ r.recorder.phase.goal = some (.dump start end_)
  writing : ∀ order last run, r.stand = .handling order last (.writing run) →
    run.written.flatten ++ r.recorder.phase.unwritten = run.events

structure Dumps (Q : DumpRun T → Prop) (r : RunRecorder T) : Prop where
  writing : ∀ order last run, r.stand = .handling order last (.writing run) → Q run
  finished : ∀ d ∈ r.dumps, Q d

structure Told (clock : Clock) (d : DumpRun T) : Prop where
  asked : ∃ start end_ rest, d.order.msg.asks = some (start,end_,rest) ∧
    d.events = assemble d.history d.tails clock d.horizonTicks start end_
  split : d.absorbed.map (·.2) = d.evicted.map (·.batch) ++ d.history

variable {tidOf : T → UInt32} {sinks : Sinks} {r r' : RunRecorder T} {Q : DumpRun T → Prop}
  {recorder recorder' : Recorder T}

theorem absorbStep_phase (absorbed : recorder.absorbStep tidOf = some recorder') (busy : recorder.phase ≠ .idle) :
    recorder'.phase.goal = recorder.phase.goal ∧ recorder'.phase.unwritten = recorder.phase.unwritten := by
  unfold Recorder.absorbStep at absorbed
  split at absorbed
  · rename_i idle
    exact absurd idle busy
  · rename_i goal phase
    obtain ⟨_,_,_,shape⟩ := absorb_some absorbed
    rw [shape,phase]
    dsimp only
    split <;> exact ⟨rfl,rfl⟩
  · rename_i goal tails phase
    obtain ⟨_,_,_,shape⟩ := absorb_some absorbed
    rw [shape,phase]
    dsimp only
    split <;> exact ⟨rfl,rfl⟩
  · rename_i rest phase
    obtain ⟨_,_,_,shape⟩ := absorb_some absorbed
    rw [shape,phase]
    exact ⟨(nextChunk_blank rest).2,(nextChunk_blank rest).1⟩
  · cases absorbed

omit [DecidableEq T] in
theorem jobStep_phase {act : RecorderAct T} (next : recorder.phase.act = some act)
    (stepped : recorder.jobStep act = some recorder') :
    recorder'.phase.unwritten = recorder.phase.unwritten ∧
      (recorder'.phase.goal = recorder.phase.goal ∨ ∃ now tails, recorder.phase = .collected (.floor now) tails) := by
  cases phase : recorder.phase with
  | idle | absorbing | settling | writing | wrote | stopped =>
    rw [phase] at next
    cases next <;> simp [Recorder.jobStep] at stepped
  | locking goal =>
    rw [phase] at next
    cases next
    simp only [Recorder.jobStep,phase] at stepped
    cases stepped
    exact ⟨rfl,.inl rfl⟩
  | reading goal todo tails =>
    rw [phase] at next
    cases todo with
    | nil | cons =>
      cases next
      simp only [Recorder.jobStep,phase] at stepped
      cases stepped
      exact ⟨rfl,.inl rfl⟩
  | collected goal tails =>
    rw [phase] at next
    cases goal with
    | dump start end_ => cases next
    | floor now =>
      cases next
      simp only [Recorder.jobStep,phase] at stepped
      cases stepped
      exact ⟨rfl,.inr ⟨now,tails,rfl⟩⟩

omit [DecidableEq T] in
theorem back_other (last : Bool) {order : Sent T} {last' : Bool} {at_ : Handling T} :
    back last ≠ .handling order last' at_ := by
  cases last <;> simp [back]

theorem poised_own (poised : Poised r) (own : Own tidOf sinks r r') : Poised r' := by
  have elsewhere {r' : RunRecorder T} (gathering : ∀ order last, r'.stand ≠ .handling order last .gathering)
      (writing : ∀ order last run, r'.stand ≠ .handling order last (.writing run)) : Poised r' :=
    ⟨fun order last here => absurd here (gathering order last),fun order last run here => absurd here (writing order last run)⟩
  cases own with
  | turn stand ticker here there closing empty | absorb limit stand recorder here there closing open_ absorbed =>
    refine elsewhere ?_ ?_
    · rintro order last rfl
      cases there
    · rintro order last run rfl
      cases there
  | jobAbsorb recorder absorbed busy =>
    obtain ⟨goal,unwritten⟩ := absorbStep_phase absorbed busy
    exact ⟨goal ▸ poised.gathering,unwritten ▸ poised.writing⟩
  | job act recorder next stepped =>
    obtain ⟨unwritten,same | ⟨now,tails,phase⟩⟩ := jobStep_phase next stepped
    · exact ⟨same ▸ poised.gathering,unwritten ▸ poised.writing⟩
    · refine ⟨?_,unwritten ▸ poised.writing⟩
      intro order last here
      obtain ⟨start,end_,rest,_,goal⟩ := poised.gathering order last here
      rw [phase] at goal
      cases goal
  | dump order last start end_ rest here asks =>
    refine ⟨?_,by simp⟩
    rintro order last same
    cases same
    exact ⟨start,end_,rest,asks,rfl⟩
  | assembled order last start end_ tails run here phase shape =>
    refine ⟨by simp,?_⟩
    rintro order last run same
    cases same
    rw [(nextChunk_blank _).1,shape]
    rfl
  | wrote order last run chunk rest here phase =>
    refine ⟨by simp,?_⟩
    rintro order last run' same
    cases same
    have whole := poised.writing order last run here
    rw [phase] at whole
    simpa [Phase.unwritten] using whole
  | opened order last id start here msg | cancelled order last id here msg | acked order last path here =>
    exact elsewhere (fun _ _ => back_other last) fun _ _ _ => back_other last
  | _ => exact elsewhere (by simp [rewindowed]) (by simp [rewindowed])

theorem dumps_own (unwritten : ∀ d written dropped, Q d → Q {d with written := written,dropped := dropped})
    (fresh : ∀ order last start end_ tails path, r.stand = .handling order last .gathering →
      r.recorder.phase = .collected (.dump start end_) tails → Q (r.gathered order tails start end_ path))
    (held : Dumps Q r) (own : Own tidOf sinks r r') : Dumps Q r' := by
  have elsewhere {r' : RunRecorder T} (dumps : r'.dumps = r.dumps)
      (writing : ∀ order last run, r'.stand ≠ .handling order last (.writing run)) : Dumps Q r' :=
    ⟨fun order last run here => absurd here (writing order last run),dumps ▸ held.finished⟩
  cases own with
  | turn stand ticker here there closing empty | absorb limit stand recorder here there closing open_ absorbed =>
    refine elsewhere rfl ?_
    rintro order last run rfl
    cases there
  | jobAbsorb recorder absorbed busy => exact ⟨held.writing,held.finished⟩
  | job act recorder next stepped => exact ⟨held.writing,held.finished⟩
  | assembled order last start end_ tails run here phase shape =>
    refine ⟨?_,held.finished⟩
    rintro order last run same
    cases same
    rw [shape]
    exact fresh order last start end_ tails _ here phase
  | wrote order last run chunk rest here phase =>
    refine ⟨?_,held.finished⟩
    rintro order last run' same
    cases same
    exact unwritten run _ run.dropped (held.writing order last run here)
  | finished order last run here phase works =>
    refine ⟨by simp,?_⟩
    intro d present
    rcases List.mem_append.mp present with earlier | now
    · exact held.finished d earlier
    · rw [List.mem_singleton.mp now]
      exact unwritten run run.written _ (held.writing order last run here)
  | opened order last id start here msg | cancelled order last id here msg | acked order last path here =>
    exact elsewhere rfl fun _ _ _ => back_other last
  | _ => exact elsewhere rfl (by simp [rewindowed])

omit [DecidableEq T] in
theorem free_stand (sinks : Sinks) {stand : Stand T} (free : stand.order = none) (made : Nat) :
    stand.taken = [] ∧ stand.dumped = [] ∧ stand.owed = [] ∧ stand.Fits sinks made := by
  cases stand with
  | handling => cases free
  | failed => cases free
  | _ => exact ⟨rfl,rfl,rfl,trivial⟩

omit [DecidableEq T] in
theorem tallied_same (tallied : Tallied sinks r) (handled : r'.handled = r.handled) (sent : r'.sent = r.sent)
    (dumps : r'.dumps = r.dumps) (acks : r'.acks ++ r'.stand.owed = r.acks ++ r.stand.owed)
    (waiting : r'.stand.taken ++ r'.control = r.stand.taken ++ r.control)
    (dumped : r'.stand.dumped = r.stand.dumped) (fits : r'.stand.Fits sinks r.dumps.length) : Tallied sinks r' :=
  ⟨by rw [handled,waiting,sent,tallied.sent],by rw [dumps,handled,dumped,tallied.dumps],
    by rw [acks,dumps,tallied.acks],dumps ▸ tallied.works,dumps ▸ tallied.written,dumps.symm ▸ fits⟩

omit [DecidableEq T] in
theorem tallied_handled (tallied : Tallied sinks r) {order : Sent T} {n : Nat}
    (handled : r'.handled = r.handled ++ [(order,n)]) (sent : r'.sent = r.sent) (dumps : r'.dumps = r.dumps)
    (acks : r'.acks ++ r'.stand.owed = r.acks ++ r.stand.owed) (control : r'.control = r.control)
    (taken : r.stand.taken = [order]) (done : r'.stand.taken = [])
    (dumped : r.stand.dumped = [order].filter asking) (settled : r'.stand.dumped = [])
    (fits : r'.stand.Fits sinks r.dumps.length) : Tallied sinks r' := by
  refine ⟨?_,?_,by rw [acks,dumps,tallied.acks],dumps ▸ tallied.works,dumps ▸ tallied.written,dumps.symm ▸ fits⟩
  · rw [handled,List.map_append,done,control,sent,← tallied.sent,taken,List.append_assoc]
    rfl
  · rw [dumps,handled,List.map_append,List.filter_append,settled,List.append_nil,tallied.dumps,dumped]
    rfl

omit [DecidableEq T] in
theorem tallied_finished (tallied : Tallied sinks r) (poised : Poised r) {order : Sent T} {last : Bool} {run : DumpRun T}
    {dropped : Nat} (here : r.stand = .handling order last (.writing run)) (phase : r.recorder.phase = .idle)
    (works : (sinks r.dumps.length order.msg.reason).failsAt = none) :
    Tallied sinks {r with
      dumps := r.dumps ++ [{run with dropped := dropped}]
      stand := .handling order last (.dumped run.path)} := by
  have fits := tallied.fits
  rw [here] at fits
  obtain ⟨asks,own,path⟩ := fits
  have whole := poised.writing order last run here
  have sent := tallied.sent
  have dumps := tallied.dumps
  have acks := tallied.acks
  rw [here] at sent dumps acks
  rw [phase] at whole
  refine ⟨sent,?_,?_,?_,?_,asks⟩
  · rw [List.map_append,dumps,List.append_assoc]
    simp [Stand.dumped,own]
  · rw [List.filterMap_append,← acks,List.append_assoc]
    cases reply : order.msg.done <;> simp [Stand.owed,DumpRun.ack,own,reply]
  · intro k d present
    rw [List.getElem?_append] at present
    split at present
    · exact tallied.works k d present
    · rename_i beyond
      rw [List.getElem?_singleton] at present
      split at present
      · cases present
        have last : k = r.dumps.length := by omega
        rw [last,own]
        exact ⟨works,path⟩
      · cases present
  · intro d present
    rcases List.mem_append.mp present with earlier | now
    · exact tallied.written d earlier
    · rw [List.mem_singleton.mp now]
      simpa [Phase.unwritten] using whole

theorem tallied_own (tallied : Tallied sinks r) (poised : Poised r) (own : Own tidOf sinks r r') : Tallied sinks r' := by
  have fits := tallied.fits
  cases own with
  | turn stand ticker here there closing empty | absorb limit stand recorder here there closing open_ absorbed =>
    obtain ⟨taken,dumped,owed,_⟩ := free_stand sinks here r.dumps.length
    obtain ⟨taken',dumped',owed',fits'⟩ := free_stand sinks there r.dumps.length
    exact tallied_same tallied rfl rfl rfl (by rw [owed,owed']) (by rw [taken,taken']) (dumped'.trans dumped.symm) fits'
  | receive order rest last waiting here =>
    obtain ⟨taken,dumped,owed,_⟩ := free_stand sinks (here ▸ back_order last) r.dumps.length
    refine tallied_same tallied rfl rfl rfl (by rw [owed]; rfl) ?_ dumped.symm trivial
    rw [taken,waiting]
    rfl
  | jobAbsorb recorder absorbed busy => exact tallied_same tallied rfl rfl rfl rfl rfl rfl fits
  | job act recorder next stepped => exact tallied_same tallied rfl rfl rfl rfl rfl rfl fits
  | floor now recorder ticker begun here =>
    exact tallied_same tallied rfl rfl rfl (by rw [here]; rfl) (by rw [here]; rfl) (by rw [here]; rfl) trivial
  | floorLast now recorder order last path begun here =>
    exact tallied_same tallied rfl rfl rfl (by rw [here]; rfl) (by rw [here]; rfl) (by rw [here]; rfl) trivial
  | opened order last id start here msg =>
    obtain ⟨taken,dumped,owed,fits⟩ := free_stand sinks (back_order (T := T) last) r.dumps.length
    refine tallied_handled tallied rfl rfl rfl ?_ rfl (by rw [here]; rfl) taken ?_ dumped fits
    · simp only [rewindowed,owed,here]
      rfl
    · simp [here,Stand.dumped,asking,msg,Control.asks]
  | cancelled order last id here msg =>
    obtain ⟨taken,dumped,owed,fits⟩ := free_stand sinks (back_order (T := T) last) r.dumps.length
    refine tallied_handled tallied rfl rfl rfl ?_ rfl (by rw [here]; rfl) taken ?_ dumped fits
    · simp only [rewindowed,owed,here]
      rfl
    · simp [here,Stand.dumped,asking,msg,Control.asks]
  | ended order last id path here msg =>
    rw [here] at fits
    refine tallied_handled tallied rfl rfl rfl (by rw [here]; rfl) rfl (by rw [here]; rfl) rfl ?_ rfl trivial
    have asks : asking order = true := fits
    simp [here,Stand.dumped,asks]
  | unwindowed order last path here msg =>
    rw [here] at fits
    refine tallied_handled tallied rfl rfl rfl (by rw [here]; rfl) rfl (by rw [here]; rfl) rfl ?_ rfl trivial
    have asks : asking order = true := fits
    simp [here,Stand.dumped,asks]
  | dump order last start end_ rest here asks =>
    refine tallied_same tallied rfl rfl rfl (by rw [here]; rfl) (by rw [here]; rfl) (by rw [here]; rfl) ?_
    simp [Stand.Fits,asks]
  | assembled order last start end_ tails run here phase shape =>
    rw [here] at fits
    refine tallied_same tallied rfl rfl rfl (by rw [here]; rfl) (by rw [here]; rfl) (by rw [here]; rfl) ⟨fits,?_⟩
    rw [shape]
    exact ⟨rfl,rfl⟩
  | wrote order last run chunk rest here phase =>
    rw [here] at fits
    exact tallied_same tallied rfl rfl rfl (by rw [here]; rfl) (by rw [here]; rfl) (by rw [here]; rfl) fits
  | finished order last run here phase works => exact tallied_finished tallied poised here phase works
  | failed order last at_ phase here exposed fails =>
    rw [here] at fits
    have asks : order.msg.asks.isSome = true := by
      cases at_ with
      | gathering => exact fits
      | writing run => exact fits.1
      | _ => cases exposed
    have before : r.stand.taken = [order] ∧ r.stand.dumped = [] ∧ r.stand.owed = [] := by
      rw [here]
      cases at_ with
      | gathering | writing => exact ⟨rfl,rfl,rfl⟩
      | _ => cases exposed
    obtain ⟨taken,dumped,owed⟩ := before
    exact tallied_same tallied rfl rfl rfl (by rw [owed]; rfl) (by rw [taken]; rfl) dumped.symm ⟨asks,fails⟩
  | floored order last path here =>
    exact tallied_same tallied rfl rfl rfl (by rw [here]; rfl) (by rw [here]; rfl) (by rw [here]; rfl) trivial
  | acked order last path here =>
    obtain ⟨taken,dumped,owed,fits⟩ := free_stand sinks (back_order (T := T) last) r.dumps.length
    refine tallied_same tallied rfl rfl rfl ?_ (by rw [taken,here]; rfl) (by rw [dumped,here]; rfl) fits
    rw [owed,here,List.append_nil]
    rfl

theorem settled_step {act : RunAct T} (unwritten : ∀ d written dropped, Q d → Q {d with written := written,dropped := dropped})
    (fresh : ∀ order last start end_ tails path, r.stand = .handling order last .gathering →
      r.recorder.phase = .collected (.dump start end_) tails → Q (r.gathered order tails start end_ path))
    (settled : Tallied sinks r ∧ Poised r ∧ Dumps Q r) (stepped : r.step tidOf sinks act = some r') :
    Tallied sinks r' ∧ Poised r' ∧ Dumps Q r' := by
  obtain ⟨tallied,poised,held⟩ := settled
  rcases step_cases stepped with ⟨a,w,_,_,_,rfl⟩ | ⟨msg,_,rfl⟩ | ⟨_,own⟩
  · exact ⟨tallied_same tallied rfl rfl rfl rfl rfl rfl tallied.fits,⟨poised.gathering,poised.writing⟩,
      ⟨held.writing,held.finished⟩⟩
  · refine ⟨⟨?_,tallied.dumps,tallied.acks,tallied.works,tallied.written,tallied.fits⟩,
      ⟨poised.gathering,poised.writing⟩,⟨held.writing,held.finished⟩⟩
    rw [← tallied.sent]
    simp
  · exact ⟨tallied_own tallied poised own,poised_own poised own,dumps_own unwritten fresh held own⟩

omit [DecidableEq T] in
theorem initial_settled (id : Nat) (clock : Clock) (capacityBytes : Nat) :
    Tallied sinks (initial (T := T) id clock capacityBytes) ∧ Poised (initial (T := T) id clock capacityBytes) ∧
      Dumps Q (initial (T := T) id clock capacityBytes) :=
  ⟨⟨rfl,rfl,rfl,by simp [initial],by simp [initial],trivial⟩,⟨by simp [initial],by simp [initial]⟩,
    ⟨by simp [initial],by simp [initial]⟩⟩

theorem outside_closed {w w' : World T} {a : Act T} (stepped : w.step tidOf a = some w')
    (sound : Sound tidOf w) (closed : w.queue.closed = true) : w'.queue.closed = true := by
  by_cases closing : a = .close
  · rw [closing] at stepped
    cases stepped
    rfl
  · rw [(step_rest sound stepped).closed closing,closed]

theorem own_world (own : Own tidOf sinks r r') :
    (∃ limit, r.recorder.world.step tidOf (.drain limit) = some r'.recorder.world) ∨
      ∃ floor, r'.recorder.world = r.recorder.world.withQueue {r.recorder.world.queue with recycleFloor := floor} := by
  cases own with
  | absorb limit stand recorder here there closing open_ absorbed => exact .inl ⟨limit,(absorb_some absorbed).1⟩
  | jobAbsorb recorder absorbed busy => exact .inl (absorbStep_some absorbed)
  | job act recorder next stepped => exact .inr (jobStep_world stepped)
  | floor now recorder ticker begun here => exact .inr (jobStep_world begun)
  | floorLast now recorder order last path begun here => exact .inr (jobStep_world begun)
  | _ => exact .inr ⟨_,rfl⟩

theorem own_closed (sound : Sound tidOf r.recorder.world) (own : Own tidOf sinks r r')
    (closed : r.recorder.world.queue.closed = true) : r'.recorder.world.queue.closed = true := by
  rcases own_world own with ⟨limit,drained⟩ | ⟨floor,same⟩
  · exact outside_closed drained sound closed
  · rw [same]
    exact closed

theorem own_clock (sound : Sound tidOf r.recorder.world) (own : Own tidOf sinks r r') :
    r'.recorder.world.queue.clock = r.recorder.world.queue.clock := by
  rcases own_world own with ⟨limit,drained⟩ | ⟨floor,same⟩
  · exact (step_rest sound drained).clock
  · rw [same]
    rfl

theorem own_sound (sound : Sound tidOf r.recorder.world) (own : Own tidOf sinks r r') :
    Sound tidOf r'.recorder.world := by
  rcases own_world own with ⟨limit,drained⟩ | ⟨floor,same⟩
  · exact step_sound sound drained
  · rw [same]
    exact ⟨sound.distinct,sound.threads,sound.balance⟩

theorem shut_own (shut : Shut r) (sound : Sound tidOf r.recorder.world) (own : Own tidOf sinks r r') : Shut r' := by
  have still := own_closed sound own
  have unfinished {r' : RunRecorder T} (closed : r'.stand.last = true → r.stand.last = true)
      (still : r.recorder.world.queue.closed = true → r'.recorder.world.queue.closed = true)
      (running : r'.stand ≠ .returned) : Shut r' :=
    ⟨fun last => still (shut.closed (closed last)),fun done => absurd done running⟩
  cases own with
  | turn stand ticker here there closing empty =>
    exact ⟨fun last => (closing last).elim shut.closed id,empty⟩
  | receive order rest last waiting here =>
    refine unfinished ?_ still (by simp)
    rw [here]
    cases last <;> simp [Stand.last,back]
  | absorb limit stand recorder here there closing open_ absorbed => exact unfinished closing still open_
  | jobAbsorb recorder absorbed busy => exact ⟨fun last => still (shut.closed last),shut.empty⟩
  | job act recorder next stepped => exact ⟨fun last => still (shut.closed last),shut.empty⟩
  | floor now recorder ticker begun here => exact unfinished (by simp [Stand.last]) still (by simp)
  | opened order last id start here msg | cancelled order last id here msg | acked order last path here =>
    refine unfinished ?_ still ?_
    · rw [here]
      cases last <;> simp [Stand.last,back,rewindowed]
    · cases last <;> simp [back,rewindowed]
  | failed order last at_ phase here exposed fails => exact unfinished (by simp [Stand.last]) still (by simp)
  | ended order last id path here msg => exact unfinished (by simp [Stand.last,here,rewindowed]) still (by simp [rewindowed])
  | floorLast now recorder order last path begun here => exact unfinished (by simp [Stand.last,here]) still (by simp)
  | unwindowed order last path here msg => exact unfinished (by simp [Stand.last,here]) still (by simp)
  | dump order last start end_ rest here asks => exact unfinished (by simp [Stand.last,here]) still (by simp)
  | assembled order last start end_ tails run here phase shape =>
    exact unfinished (by simp [Stand.last,here]) still (by simp)
  | wrote order last run chunk rest here phase => exact unfinished (by simp [Stand.last,here]) still (by simp)
  | finished order last run here phase works => exact unfinished (by simp [Stand.last,here]) still (by simp)
  | floored order last path here => exact unfinished (by simp [Stand.last,here]) still (by simp)

theorem shut_step {act : RunAct T} (shut : Shut r ∧ Sound tidOf r.recorder.world) (prompt : Prompt r act)
    (stepped : r.step tidOf sinks act = some r') : Shut r' ∧ Sound tidOf r'.recorder.world := by
  obtain ⟨shut,sound⟩ := shut
  rcases step_cases stepped with ⟨a,w,_,_,moved,rfl⟩ | ⟨msg,rfl,rfl⟩ | ⟨_,own⟩
  · exact ⟨⟨fun last => outside_closed moved sound (shut.closed last),shut.empty⟩,step_sound sound moved⟩
  · refine ⟨⟨shut.closed,?_⟩,sound⟩
    intro done
    have closed := shut.closed (by rw [show r.stand = .returned from done]; rfl)
    have open_ : r.recorder.world.queue.closed = false := prompt
    rw [open_] at closed
    cases closed
  · exact ⟨shut_own shut sound own,own_sound sound own⟩

theorem initial_shut (id : Nat) (clock : Clock) (capacityBytes : Nat) :
    Shut (initial (T := T) id clock capacityBytes) ∧
      Sound tidOf (initial (T := T) id clock capacityBytes).recorder.world :=
  ⟨⟨by simp [initial,Stand.last],fun _ => rfl⟩,initial_sound id clock⟩

end RunRecorder

end Trace0
