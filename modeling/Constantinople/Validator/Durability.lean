/-
What the Store holds in every run, whenever the process crashes and whenever requests arrive. Its watermarks
are those of one frontier of the chain, and the rows of every block before it are there; a block whose queue
entry is acknowledged is before the frontier; and the publisher takes every entry that the consumer reads,
unless a request of an earlier process arrived between its two reads and put it out of step for good.
-/
import Constantinople.Validator.Connection

namespace Constantinople

open Run

variable {C D : Type}

/-! ## Entries that stay -/

theorem getElem?_of_extends {α : Type} {l l' : List α} (h : l <+: l') {i : Nat} {a : α} (ha : l[i]? = some a) :
    l'[i]? = some a := by
  obtain ⟨rest, rfl⟩ := h
  rw [List.getElem?_append_left (List.getElem?_eq_some_iff.1 ha).1]
  exact ha

theorem QueueOrder.top_mono {chain : List (SealedBlock C D)} {first published : Nat}
    {uploads uploads' : List (QueuedFinalizedUpload C D)} (h : QueueOrder chain first published uploads')
    (hgrown : uploads <+: uploads') : queueTop first uploads ≤ queueTop first uploads' := by
  obtain rfl | ⟨init, last, rfl⟩ := List.eq_nil_or_concat' uploads
  · exact h.first_le_top
  · rw [queueTop_concat]
    exact h.lt_top (getElem?_of_extends hgrown List.getElem?_concat_length)

/-- Any event of the producer but a crash. -/
theorem Node.Capturing.step {chain : List (SealedBlock C D)} (hchain : Consecutive chain)
    {first published started returned : Nat} {s s' : Node C D} (h : s.Capturing chain first published)
    (hnode : s.Recoverable chain first started returned) {event : NodeEvent}
    (hproves : ∀ env, event = .write env → env.ProvesRanges)
    (hasked : ∀ env, event = .retry env → s.phase = .calling → s.Asked chain first env)
    (hcrash : ∀ lost, event ≠ .crash lost) (hack : ∀ i, event ≠ .acknowledge i) (hstep : s.step chain event = some s') :
    s'.Capturing chain first published ∧
      (s'.queue = s.queue ∨ ∃ upload, s'.queue = s.queue ++ [⟨upload, false⟩]) := by
  cases event with
  | deliver =>
    obtain ⟨hphase, -, rfl⟩ := Node.step_deliver hstep
    exact ⟨h.deliver hphase, .inl rfl⟩
  | retry env =>
    obtain ⟨hphase, block, cursor, hblock, hiter, rfl⟩ := Node.step_retry hstep
    exact ⟨h.retry hchain hphase (hasked env rfl hphase) hblock hiter, .inl rfl⟩
  | write env =>
    obtain ⟨hphase, block, upload, next, hblock, hiter, -, rfl⟩ := Node.step_write hstep
    exact ⟨h.write hchain hnode.begun hphase (hproves env rfl) hblock hiter, .inr ⟨upload, rfl⟩⟩
  | writeFailed env =>
    obtain rfl := Node.step_writeFailed hstep
    exact ⟨h, .inl rfl⟩
  | persist =>
    obtain ⟨next, hphase, rfl⟩ := Node.step_persist hstep
    have hin := hnode.phase
    rw [Node.InPhase, hphase] at hin
    exact ⟨h.persist hphase hin.2.1, .inl rfl⟩
  | complete =>
    obtain ⟨hphase, rfl⟩ := Node.step_complete hstep
    exact ⟨h.complete hnode.begun hphase, .inl rfl⟩
  | acknowledge i => exact absurd rfl (hack i)
  | crash lost => exact absurd rfl (hcrash lost)

namespace Indexing

/-! ## The invariant -/

/-- What the consumer has done with its connection: entries before the reader's place are handed over or were
there; what was handed over is from the queue; entries acknowledged after that place were there when the
publisher connected; and a task waits for the upload of its entry, or its block is published. -/
structure Reading (s : Indexing C D) (published base : Nat) (c : Connection C D) : Prop where
  read : ∀ q < s.queue.reader, ∃ upload : QueuedFinalizedUpload C D, s.queue.node.uploads[q]? = some upload ∧
    upload.index < base + c.publisher.handed.length
  handed : ∀ (n : Nat) (upload : QueuedFinalizedUpload C D), c.publisher.handed[n]? = some upload →
    ∃ q < s.queue.reader, s.queue.node.uploads[q]? = some upload
  acknowledged : ∀ (q : Nat) (entry : QueueEntry C D), s.queue.reader ≤ q → s.queue.node.queue[q]? = some entry →
    entry.acknowledged = true → entry.upload.index < base
  tasks : ∀ task ∈ s.tasks, task.position < s.queue.reader ∧
    ∃ upload : QueuedFinalizedUpload C D, s.queue.node.uploads[task.position]? = some upload ∧
      (upload.index < published ∨ ∃ n, task.number = some n ∧ c.publisher.handed[n]? = some upload)

structure Durable (chain : List (SealedBlock C D)) (first published : Nat) (s : Indexing C D) : Prop where
  queue : s.queue.Consistent chain first
  node : s.queue.node.Capturing chain first published
  store : s.store.Holds chain first published
  captured : published ≤ queueTop first s.queue.node.uploads
  acknowledged : ∀ entry ∈ s.queue.node.queue, entry.acknowledged = true → entry.upload.index < published
  finished : ∀ i ∈ s.queue.finished, i < s.queue.reader ∧
    ∃ upload : QueuedFinalizedUpload C D, s.queue.node.uploads[i]? = some upload ∧ upload.index < published
  late : ∀ request ∈ s.late, ∃ b ≤ queueTop first s.queue.node.uploads, request.Brings chain first published s.store b
  connected : ∀ c, s.connection = some c →
    ∃ base, c.Connected chain first published s.store base ∧ s.Reading published base c
  disconnected : s.connection = none → s.queue.reader = 0 ∧ s.tasks = []
  recovering : ∀ state, s.recovered = some state → s.connection = none ∧ ∃ k, first ≤ k ∧ k ≤ published ∧
    state = (watermarksAt chain k).state ∧
    ∀ entry ∈ s.queue.node.queue, entry.acknowledged = true → entry.upload.index < k

section Steps

variable {E : Env D} {chain : List (SealedBlock C D)} {first published maxActive maxInFlight : Nat} {s s' : Indexing C D}

theorem fresh_durable (hfirst : first ≤ chain.length) : (fresh chain first).Durable chain first first where
  queue := ⟨Node.fresh_recoverable hfirst, by rintro i entry ⟨⟩, List.forall_mem_nil _⟩
  node := Node.fresh_capturing
  store := ⟨le_rfl, hfirst, rfl, fun j h h' => absurd h' (Nat.not_lt.2 h)⟩
  captured := le_rfl
  acknowledged := by rintro entry ⟨⟩
  finished := by rintro i ⟨⟩
  late := by rintro request ⟨⟩
  connected := by rintro c ⟨⟩
  disconnected := fun _ => ⟨rfl, rfl⟩
  recovering := by rintro state ⟨⟩

/-- Everything handed over is captured. -/
theorem Reading.handed_le {base : Nat} {c : Connection C D} (h : s.Reading published base c)
    (hc : c.Connected chain first published s.store base) (hchain : Consecutive chain)
    (horder : QueueOrder chain first published s.queue.node.uploads)
    (hcaptured : published ≤ queueTop first s.queue.node.uploads) :
    base + c.publisher.handed.length ≤ queueTop first s.queue.node.uploads := by
  rcases Nat.eq_zero_or_pos c.publisher.handed.length with hzero | hpos
  · have := hc.base_le
    omega
  · have hlast := List.getElem?_eq_getElem (show c.publisher.handed.length - 1 < c.publisher.handed.length by omega)
    obtain ⟨q, -, hq⟩ := h.handed _ _ hlast
    have hindex := (hc.handed hlast).index hchain
    have := horder.lt_top hq
    omega

/-- More entries in the queue, or a later Store. -/
theorem Reading.mono {base published' : Nat} {c : Connection C D} (h : s.Reading published base c)
    (huploads : s.queue.node.uploads <+: s'.queue.node.uploads) (hreader : s'.queue.reader = s.queue.reader)
    (htasks : s'.tasks = s.tasks) (hle : published ≤ published')
    (hacknowledged : ∀ (q : Nat) (entry : QueueEntry C D), s.queue.reader ≤ q → s'.queue.node.queue[q]? = some entry →
      entry.acknowledged = true → s.queue.node.queue[q]? = some entry) : s'.Reading published' base c := by
  constructor
  · intro q hq
    obtain ⟨upload, hu, hlt⟩ := h.read q (hreader ▸ hq)
    exact ⟨upload, getElem?_of_extends huploads hu, hlt⟩
  · intro n upload hn
    obtain ⟨q, hq, hu⟩ := h.handed n upload hn
    exact ⟨q, hreader ▸ hq, getElem?_of_extends huploads hu⟩
  · intro q entry hq hentry hack
    rw [hreader] at hq
    exact h.acknowledged q entry hq (hacknowledged q entry hq hentry hack) hack
  · intro task htask
    obtain ⟨hposition, upload, hu, hcase⟩ := h.tasks task (htasks ▸ htask)
    exact ⟨hreader ▸ hposition, upload, getElem?_of_extends huploads hu, hcase.imp_left fun hlt => hlt.trans_le hle⟩

/-! ## The producer and crashes -/

/-- With a publisher that is out of step some entry is not acknowledged, since its block was not published when the
state watermark was read. -/
theorem Reading.unacknowledged {base : Nat} {c : Connection C D} (h : s.Reading published base c)
    (hstalled : c.Stalled chain first published base) (hcaptured : published ≤ queueTop first s.queue.node.uploads) :
    ∃ entry ∈ s.queue.node.queue, entry.acknowledged = false := by
  by_contra hall
  have hbefore : ∀ (q : Nat) (entry : QueueEntry C D), s.queue.node.queue[q]? = some entry → entry.upload.index < base := by
    intro q entry hentry
    rcases Nat.lt_or_ge q s.queue.reader with hread | hskipped
    · obtain ⟨upload, hu, hlt⟩ := h.read q hread
      rw [Node.uploads, List.getElem?_map, hentry] at hu
      cases hu
      rw [hstalled.handed] at hlt
      exact hlt
    · have hack : entry.acknowledged = true := by
        by_contra hunread
        exact hall ⟨entry, List.mem_of_getElem? hentry, by simpa using hunread⟩
      exact h.acknowledged q entry hskipped hentry hack
  have hbegun := hstalled.begun
  have hlt := hstalled.base_lt
  obtain hnil | ⟨init, last, hconcat⟩ := List.eq_nil_or_concat' s.queue.node.queue
  · rw [show s.queue.node.uploads = [] by rw [Node.uploads, hnil]; rfl, queueTop_nil] at hcaptured
    omega
  · have hlast := hbefore init.length last (by rw [hconcat, List.getElem?_concat_length])
    rw [show s.queue.node.uploads = init.map QueueEntry.upload ++ [last.upload] by simp [Node.uploads, hconcat],
      queueTop_concat] at hcaptured
    omega

theorem Durable.asked (hchain : Consecutive chain) (h : s.Durable chain first published) {env : ProducerEnv}
    (hphase : s.queue.node.phase = .calling) (hanswers : s.answers chain (.retry env) = true) :
    s.queue.node.Asked chain first env := by
  intro block height hblock hbuild hzero
  unfold answers at hanswers
  simp only [hblock, hbuild, hzero, ne_eq, not_true_eq_false, false_or, decide_eq_true_eq] at hanswers
  obtain ⟨c, hc, hnext⟩ := (Option.any_eq_true _ _).1 hanswers
  obtain ⟨base, hconnected, hreading⟩ := h.connected c hc
  rcases hconnected with hfollows | hstalled
  · refine ⟨base + c.publisher.handed.length, ?_, hreading.handed_le (.inl hfollows) hchain h.node.order h.captured, ?_⟩
    · have := hfollows.begun
      omega
    · rw [of_decide_eq_true hnext]
      exact hfollows.next
  · -- the cursor is empty, so every entry is acknowledged
    obtain ⟨hfirst, hempty⟩ := h.node.empty_cursor hchain h.queue.node.begun hblock hzero
    have hall := h.node.emptied (congrArg Phase.written hphase) hfirst hempty
    obtain ⟨entry, hentry, hunread⟩ := hreading.unacknowledged hstalled h.captured
    rw [hall entry hentry] at hunread
    cases hunread

/-- The producer adds at most an entry that is not acknowledged. -/
theorem Durable.produce (h : s.Durable chain first published) {queue : UploadQueue C D}
    (hqueue : queue.Consistent chain first) (hnode : queue.node.Capturing chain first published)
    (hentries : queue.node.queue = s.queue.node.queue ∨
      ∃ upload, queue.node.queue = s.queue.node.queue ++ [⟨upload, false⟩])
    (hreader : queue.reader = s.queue.reader) (hfinished : queue.finished = s.queue.finished) :
    Durable chain first published { s with queue := queue } := by
  have hgrown : s.queue.node.uploads <+: queue.node.uploads := by
    unfold Node.uploads
    rcases hentries with heq | ⟨upload, heq⟩
    · rw [heq]
    · rw [heq, List.map_append]
      exact List.prefix_append _ _
  have htop := hnode.order.top_mono hgrown
  have hold : ∀ (q : Nat) (entry : QueueEntry C D), queue.node.queue[q]? = some entry → entry.acknowledged = true →
      s.queue.node.queue[q]? = some entry := by
    intro q entry hentry hack
    rcases hentries with heq | ⟨upload, heq⟩
    · exact heq ▸ hentry
    · rw [heq] at hentry
      rcases getElem?_concat_some hentry with hold | ⟨-, rfl⟩
      · exact hold
      · cases hack
  constructor
  · exact hqueue
  · exact hnode
  · exact h.store
  · exact h.captured.trans htop
  · intro entry hentry hack
    obtain ⟨q, hq⟩ := List.mem_iff_getElem?.1 hentry
    exact h.acknowledged entry (List.mem_of_getElem? (hold q entry hq hack)) hack
  · intro i hi
    obtain ⟨hplace, upload, hu, hlt⟩ := h.finished i (hfinished ▸ hi)
    exact ⟨hreader ▸ hplace, upload, getElem?_of_extends hgrown hu, hlt⟩
  · intro request hr
    obtain ⟨b, hb, hbrings⟩ := h.late request hr
    exact ⟨b, hb.trans htop, hbrings⟩
  · intro c hc
    obtain ⟨base, hconnected, hreading⟩ := h.connected c hc
    exact ⟨base, hconnected, hreading.mono hgrown hreader rfl le_rfl fun q entry _ => hold q entry⟩
  · intro hnone
    obtain ⟨hzero, htasks⟩ := h.disconnected hnone
    exact ⟨hreader.trans hzero, htasks⟩
  · intro state hstate
    obtain ⟨hnone, k, hfirst, hk, heq, hacknowledged⟩ := h.recovering state hstate
    refine ⟨hnone, k, hfirst, hk, heq, fun entry hentry hack => ?_⟩
    obtain ⟨q, hq⟩ := List.mem_iff_getElem?.1 hentry
    exact hacknowledged entry (List.mem_of_getElem? (hold q entry hq hack)) hack

/-- After a crash only the queue and the Store are left, and the requests on their way. -/
theorem Durable.crash (hchain : Consecutive chain) (h : s.Durable chain first published) {queue : UploadQueue C D}
    {lost : List Nat} (hqueue : queue.Consistent chain first) (hnode : s.queue.node.restart lost = .ok queue.node)
    (hreader : queue.reader = 0) (hfinished : queue.finished = []) : (s.crashed queue).Durable chain first published := by
  obtain ⟨-, -, -, hentries, -, -⟩ := Node.restart_inv hnode
  have huploads := Node.restart_uploads hnode
  -- an acknowledgement that is not lost was there before
  have hack : ∀ entry ∈ queue.node.queue, entry.acknowledged = true → entry.upload.index < published := by
    intro entry hentry hacked
    rw [hentries, List.mem_mapIdx] at hentry
    obtain ⟨i, hi, rfl⟩ := hentry
    split at hacked
    · cases hacked
    · rename_i hkept
      rw [if_neg hkept]
      exact h.acknowledged _ (List.getElem_mem hi) hacked
  constructor
  · exact hqueue
  · exact h.node.restart hchain h.queue.node hnode hack
  · exact h.store
  · exact huploads.symm ▸ h.captured
  · exact hack
  · intro i hi
    change i ∈ queue.finished at hi
    rw [hfinished] at hi
    cases hi
  · show ∀ request ∈ s.late ++ s.connection.toList.flatMap Connection.outstanding, ∃ b ≤ queueTop first queue.node.uploads, _
    rw [huploads]
    intro request hr
    rcases List.mem_append.1 hr with hr | hr
    · exact h.late request hr
    · obtain ⟨c, hc, hr⟩ := List.mem_flatMap.1 hr
      obtain ⟨base, hconnected, hreading⟩ := h.connected c (Option.mem_toList.1 hc)
      rcases hconnected with hfollows | hstalled
      · obtain ⟨b, hb, hbrings⟩ := hfollows.outstanding_brings hchain h.store hr
        exact ⟨b, hb.trans (hreading.handed_le (.inl hfollows) hchain h.node.order h.captured), hbrings⟩
      · rw [hstalled.outstanding] at hr
        cases hr
  · rintro c ⟨⟩
  · exact fun _ => ⟨hreader, rfl⟩
  · rintro state ⟨⟩

/-! ## The consumer -/

/-- Where the next entry is: every entry before it is handed over or was there, so it is of a block handed over or of
the one right after. -/
theorem Durable.next_place (h : s.Durable chain first published) {c : Connection C D} {base : Nat} (hbegun : first ≤ base)
    (hreading : s.Reading published base c) {position : Nat} (hnext : s.queue.next = some position) :
    s.queue.reader ≤ position ∧
    (∀ q < position, ∃ upload : QueuedFinalizedUpload C D, s.queue.node.uploads[q]? = some upload ∧
      upload.index < base + c.publisher.handed.length) ∧
    ∃ upload : QueuedFinalizedUpload C D, s.queue.node.uploads[position]? = some upload ∧
      upload.CapturedAt chain upload.index ∧ upload.index ≤ base + c.publisher.handed.length := by
  obtain ⟨hfound, hmem, hbefore⟩ := List.find?_range_eq_some.1 hnext
  obtain ⟨hplace, -⟩ := of_decide_eq_true hfound
  have hlt := List.mem_range.1 hmem
  have horder := h.node.order
  have hget : ∀ q, q < s.queue.node.queue.length → ∃ entry, s.queue.node.queue[q]? = some entry ∧
      s.queue.node.uploads[q]? = some entry.upload := by
    intro q hq
    refine ⟨_, List.getElem?_eq_getElem hq, ?_⟩
    rw [Node.uploads, List.getElem?_map, List.getElem?_eq_getElem hq]
    rfl
  -- entries between the reader's place and this one are acknowledged
  have hearlier : ∀ q < position, ∃ upload : QueuedFinalizedUpload C D, s.queue.node.uploads[q]? = some upload ∧
      upload.index < base + c.publisher.handed.length := by
    intro q hq
    rcases Nat.lt_or_ge q s.queue.reader with hread | hskipped
    · exact hreading.read q hread
    · obtain ⟨entry, hentry, hu⟩ := hget q (hq.trans hlt)
      have hack : entry.acknowledged = true := by
        have hnot := hbefore q hq
        simp only [hentry, hskipped, Option.any_some, true_and, Bool.not_eq_true', decide_eq_false_iff_not] at hnot
        simpa using hnot
      have := hreading.acknowledged q entry hskipped hentry hack
      exact ⟨entry.upload, hu, by omega⟩
  obtain ⟨entry, -, hu⟩ := hget position hlt
  refine ⟨hplace, hearlier, entry.upload, hu, horder.captured entry.upload (List.mem_of_getElem? hu), ?_⟩
  cases position with
  | zero =>
    rw [horder.start _ hu]
    omega
  | succ q =>
    obtain ⟨upload, hq, hindex⟩ := hearlier q (Nat.lt_succ_self q)
    have := horder.next q upload entry.upload hq hu
    omega

/-- A publisher in step takes the next entry: its block is there already and published, or it is the one right after
those handed over. -/
theorem Durable.follows_entry (hchain : Consecutive chain) (h : s.Durable chain first published) {c : Connection C D}
    {base : Nat} (hfollows : c.Follows chain first published s.store base) (hreading : s.Reading published base c)
    {position : Nat} {upload : QueuedFinalizedUpload C D} (hplace : s.queue.reader ≤ position)
    (hu : s.queue.node.uploads[position]? = some upload) (hcaptured : upload.CapturedAt chain upload.index)
    (hle : upload.index ≤ base + c.publisher.handed.length) :
    (upload.index < base + c.publisher.handed.length ∧ upload.index < published ∧
        c.publisher.enqueue true upload = .ok (.ok .completed, c.publisher)) ∨
      (upload.index = base + c.publisher.handed.length ∧
        c.publisher.enqueue true upload =
          .ok (.ok .waiting, ⟨endsAt chain (upload.index + 1), c.publisher.handed ++ [upload]⟩)) := by
  have horder := h.node.order
  have hbase := hfollows.base_le
  have hcontinues := hcaptured.continues hchain
  have hpublisher : c.publisher = ⟨endsAt chain (base + c.publisher.handed.length), c.publisher.handed⟩ := by
    rw [← hfollows.next]
  have hbound := hfollows.handed_le h.store
  rcases Nat.lt_or_eq_of_le hle with hdone | hnew
  · refine .inl ⟨hdone, ?_, ?_⟩
    · rcases Nat.lt_or_ge upload.index base with hold | hhanded
      · omega
      · -- its block was handed over for an earlier entry
        obtain ⟨n, hn⟩ := Nat.exists_eq_add_of_le hhanded
        have hnth := List.getElem?_eq_getElem (show n < c.publisher.handed.length by omega)
        obtain ⟨q, hq, huq⟩ := hreading.handed n _ hnth
        have hsame := (hfollows.handed n _ hnth).index hchain
        rw [← hn] at hsame
        have hq' := hq.trans_le hplace
        rw [← hsame]
        exact (horder.index_le hq'.le huq hu).2 hq' hsame
    · rw [hpublisher]
      exact enqueue_done hcontinues (endsAt_le hchain.state hdone hbound)
        (endsAt_transactionNext_le hchain hdone hbound) _ true
  · refine .inr ⟨hnew, ?_⟩
    rw [hpublisher, ← hnew]
    exact enqueue_next hcontinues _

/-- What a connected publisher answers to the next entry: its block is there already and published; or it is the one
right after those handed over, and taken; or the publisher is out of step and refuses it. -/
theorem Durable.next_entry (hchain : Consecutive chain) (h : s.Durable chain first published) {c : Connection C D}
    {base : Nat} (hconnected : c.Connected chain first published s.store base) (hreading : s.Reading published base c)
    {position : Nat} (hnext : s.queue.next = some position) :
    ∃ upload : QueuedFinalizedUpload C D, s.queue.node.uploads[position]? = some upload ∧
      upload.CapturedAt chain upload.index ∧
      ((upload.index < base + c.publisher.handed.length ∧ upload.index < published ∧
          c.publisher.enqueue true upload = .ok (.ok .completed, c.publisher)) ∨
        (c.Follows chain first published s.store base ∧ upload.index = base + c.publisher.handed.length ∧
          c.publisher.enqueue true upload =
            .ok (.ok .waiting, ⟨endsAt chain (upload.index + 1), c.publisher.handed ++ [upload]⟩)) ∨
        (c.Stalled chain first published base ∧ c.publisher.enqueue true upload = .ok
          (.error (.writerOutOfSync c.publisher.next.transactionNext upload.transactionStart), c.publisher))) := by
  obtain ⟨hplace, -, upload, hu, hcaptured, hle⟩ := h.next_place hconnected.begun hreading hnext
  refine ⟨upload, hu, hcaptured, ?_⟩
  rcases hconnected with hfollows | hstalled
  · rcases h.follows_entry hchain hfollows hreading hplace hu hcaptured hle with hdone | ⟨hindex, henqueue⟩
    · exact .inl hdone
    · exact .inr (.inl ⟨hfollows, hindex, henqueue⟩)
  · rw [hstalled.handed, List.length_nil, Nat.add_zero] at hle ⊢
    rcases hstalled.enqueue hchain h.store.bounded hcaptured hle with ⟨hlt, henqueue⟩ | hrefused
    · exact .inl ⟨hlt, hlt.trans hstalled.base_lt, henqueue⟩
    · exact .inr (.inr ⟨hstalled, hrefused⟩)

/-- The reader moves past an entry, and its task starts. -/
theorem Durable.started (h : s.Durable chain first published) {c : Connection C D} {base position : Nat} {publisher : Publisher C D}
    {number : Option Nat} {queue : UploadQueue C D} (hqueue : queue.Consistent chain first)
    (hnode : queue.node = s.queue.node) (hreader : queue.reader = position + 1) (hfinished : queue.finished = s.queue.finished)
    (hplace : s.queue.reader ≤ position)
    (hconnected : Connection.Connected chain first published s.store base { c with publisher := publisher })
    (hreading : s.Reading published base c) (hrecovered : s.recovered = none) (hhanded : c.publisher.handed <+: publisher.handed)
    (hread : ∀ q < position + 1, ∃ upload : QueuedFinalizedUpload C D, s.queue.node.uploads[q]? = some upload ∧
      upload.index < base + publisher.handed.length)
    (hfrom : ∀ (n : Nat) (upload : QueuedFinalizedUpload C D), publisher.handed[n]? = some upload →
      ∃ q < position + 1, s.queue.node.uploads[q]? = some upload)
    (htask : ∃ upload : QueuedFinalizedUpload C D, s.queue.node.uploads[position]? = some upload ∧
      (upload.index < published ∨ ∃ n, number = some n ∧ publisher.handed[n]? = some upload)) :
    Durable chain first published { s with
      queue := queue
      connection := some { c with publisher := publisher }
      tasks := s.tasks ++ [⟨position, number⟩] } := by
  constructor
  · exact hqueue
  · exact hnode ▸ h.node
  · exact h.store
  · exact hnode ▸ h.captured
  · exact hnode ▸ h.acknowledged
  · intro i hi
    obtain ⟨hi', upload, hu, hlt⟩ := h.finished i (hfinished ▸ hi)
    exact ⟨by simp only [hreader]; omega, upload, hnode ▸ hu, hlt⟩
  · exact hnode ▸ h.late
  · rintro c' ⟨⟩
    refine ⟨base, hconnected, ?_, ?_, ?_, ?_⟩
    · simp only [hreader, hnode]
      exact hread
    · simp only [hreader, hnode]
      exact hfrom
    · intro q entry hq
      simp only [hreader] at hq
      simp only [hnode]
      exact hreading.acknowledged q entry (by omega)
    · intro task ht
      simp only [hreader, hnode]
      rcases List.mem_append.1 ht with ht | ht
      · obtain ⟨hi, upload, hu, hcase⟩ := hreading.tasks task ht
        refine ⟨by omega, upload, hu, hcase.imp_right ?_⟩
        rintro ⟨n, hn, hget⟩
        exact ⟨n, hn, getElem?_of_extends hhanded hget⟩
      · obtain rfl := List.mem_singleton.1 ht
        exact ⟨Nat.lt_succ_self position, htask⟩
  · rintro ⟨⟩
  · intro state hstate
    rw [show s.recovered = some state from hstate] at hrecovered
    cases hrecovered

/-- A connected publisher is not reading any more. -/
theorem Durable.recovered_none (h : s.Durable chain first published) {c : Connection C D} (hc : s.connection = some c) :
    s.recovered = none := by
  cases hstate : s.recovered with
  | none => rfl
  | some state =>
    obtain ⟨hnone, -⟩ := h.recovering state hstate
    rw [hc] at hnone
    cases hnone

/-- An entry is started when the publisher takes it. -/
theorem step_start (h : s.step E chain maxActive maxInFlight .start = some s') :
    ∃ c position queue upload completion publisher, s.connection = some c ∧ s.queue.next = some position ∧
      s.queue.step chain maxActive .receive = some queue ∧ s.queue.node.uploads[position]? = some upload ∧
      c.publisher.enqueue true upload = .ok (.ok completion, publisher) ∧
      s' = { s with
        queue := queue
        connection := some { c with publisher := publisher }
        tasks := s.tasks ++ [⟨position, if completion = .waiting then some c.publisher.handed.length else none⟩] } := by
  simp only [step] at h
  split at h
  case h_2 => cases h
  rename_i c position queue hconnection hnext hreceive
  split at h
  · cases h
  rename_i upload hu
  split at h
  · rename_i publisher henqueue
    cases h
    exact ⟨c, position, queue, upload, .completed, publisher, hconnection, hnext, hreceive, hu, henqueue, rfl⟩
  · rename_i publisher henqueue
    cases h
    exact ⟨c, position, queue, upload, .waiting, publisher, hconnection, hnext, hreceive, hu, henqueue, rfl⟩
  · cases h

theorem Durable.start (hchain : Consecutive chain) (h : s.Durable chain first published)
    (hstep : s.step E chain maxActive maxInFlight .start = some s') : s'.Durable chain first published := by
  obtain ⟨c, position, queue, upload, completion, publisher, hconnection, hnext, hreceive, hu, henqueued, rfl⟩ :=
    step_start hstep
  obtain ⟨base, hconnected, hreading⟩ := h.connected c hconnection
  have hrecovered := h.recovered_none hconnection
  obtain ⟨hplace, hearlier, -⟩ := h.next_place hconnected.begun hreading hnext
  obtain ⟨_, hu', hcaptured, hanswer⟩ := h.next_entry hchain hconnected hreading hnext
  obtain rfl := Option.some.inj (hu.symm.trans hu')
  have hqueue := h.queue.step hchain.state hreceive
  obtain ⟨hnode, hreader, hfinished⟩ : queue.node = s.queue.node ∧ queue.reader = position + 1 ∧
      queue.finished = s.queue.finished := by
    simp only [UploadQueue.step, hnext] at hreceive
    split at hreceive
    · cases hreceive
      exact ⟨rfl, rfl, rfl⟩
    · cases hreceive
  have hhanded : ∀ (n : Nat) (u : QueuedFinalizedUpload C D), c.publisher.handed[n]? = some u →
      ∃ q < position + 1, s.queue.node.uploads[q]? = some u := by
    intro n u hn
    obtain ⟨q, hq, huq⟩ := hreading.handed n u hn
    exact ⟨q, by omega, huq⟩
  rcases hanswer with ⟨hbefore, hpublished, henqueue⟩ | ⟨hfollows, hindex, henqueue⟩ | ⟨-, hrefused⟩
  · -- an entry that is there already changes nothing of the publisher
    cases henqueued.symm.trans henqueue
    refine h.started hqueue hnode hreader hfinished hplace hconnected hreading hrecovered (List.prefix_refl _) ?_ hhanded
      ⟨upload, hu, .inl hpublished⟩
    intro q hq
    rcases Nat.lt_succ_iff_lt_or_eq.1 hq with hq | rfl
    · exact hearlier q hq
    · exact ⟨upload, hu, hbefore⟩
  · cases henqueued.symm.trans henqueue
    refine h.started hqueue hnode hreader hfinished hplace (.inl (hfollows.enqueued hcaptured hindex)) hreading hrecovered
      (List.prefix_append _ _) ?_ ?_ ⟨upload, hu, .inr ⟨_, rfl, List.getElem?_concat_length⟩⟩
    · intro q hq
      rw [List.length_append, List.length_singleton]
      rcases Nat.lt_succ_iff_lt_or_eq.1 hq with hq | rfl
      · obtain ⟨u, huq, hlt⟩ := hearlier q hq
        exact ⟨u, huq, by omega⟩
      · exact ⟨upload, hu, by omega⟩
    · intro n u hn
      rcases getElem?_concat_some hn with hold | ⟨-, rfl⟩
      · exact hhanded n u hold
      · exact ⟨position, Nat.lt_succ_self _, hu⟩
  · cases henqueued.symm.trans hrefused

/-- A Store that got a request, with everything else as it was. -/
theorem Durable.later (h : s.Durable chain first published) {published' : Nat} {store : RemoteStore C D}
    {connection : Option (Connection C D)} (hle : published ≤ published')
    (htop : published' ≤ queueTop first s.queue.node.uploads) (hstore : store.Holds chain first published')
    (hrows : s.store.rows ⊆ store.rows) (hnone : connection = none ↔ s.connection = none)
    (hconnected : ∀ c, connection = some c → ∃ base, c.Connected chain first published' store base ∧
      Reading { s with store := store, connection := connection } published' base c) :
    Durable chain first published' { s with store := store, connection := connection } where
  queue := h.queue
  node := h.node.mono hle
  store := hstore
  captured := htop
  acknowledged entry hentry hack := (h.acknowledged entry hentry hack).trans_le hle
  finished i hi := by
    obtain ⟨hplace, upload, hu, hlt⟩ := h.finished i hi
    exact ⟨hplace, upload, hu, hlt.trans_le hle⟩
  late request hr := by
    obtain ⟨b, hb, hbrings⟩ := h.late request hr
    exact ⟨b, hb, hbrings.mono hle hrows⟩
  connected := hconnected
  disconnected hdisconnected := h.disconnected (hnone.1 hdisconnected)
  recovering state hstate := by
    obtain ⟨hdisconnected, k, hfirst, hk, hrest⟩ := h.recovering state hstate
    exact ⟨hnone.2 hdisconnected, k, hfirst, hk.trans hle, hrest⟩

theorem step_publish {event : PublishingEvent} (h : s.step E chain maxActive maxInFlight (.publish event) = some s') :
    ∃ c publishing, s.connection = some c ∧ c.allows E event = true ∧
      c.publishing.step maxInFlight event = some publishing ∧
      s' = { s with
        connection := some { c with publishing := publishing }
        store := (c.request event).elim s.store s.store.apply } := by
  simp only [step] at h
  split at h
  · cases h
  rename_i c hconnection
  split at h
  case isFalse => cases h
  rename_i hallows
  split at h
  · cases h
  rename_i publishing hpublishing
  cases h
  exact ⟨c, publishing, hconnection, hallows, hpublishing, rfl⟩

theorem Durable.publish (hchain : Consecutive chain) (h : s.Durable chain first published) {event : PublishingEvent}
    (hstep : s.step E chain maxActive maxInFlight (.publish event) = some s') :
    ∃ published', s'.Durable chain first published' := by
  obtain ⟨c, publishing, hconnection, hallows, hpublishing, rfl⟩ := step_publish hstep
  obtain ⟨base, hfollows | hstalled, hreading⟩ := h.connected c hconnection
  case inr =>
    rw [hstalled.publish_none hallows] at hpublishing
    cases hpublishing
  obtain ⟨published', hle, htop, hstore, hrows, hfollows'⟩ := hfollows.publish hchain h.store hallows hpublishing
  have hhanded := hreading.handed_le (.inl hfollows) hchain h.node.order h.captured
  refine ⟨published', h.later hle (htop.trans (Nat.max_le.2 ⟨h.captured, hhanded⟩)) hstore hrows (by simp [hconnection]) ?_⟩
  rintro c' ⟨⟩
  refine ⟨base, .inl hfollows', hreading.read, hreading.handed, hreading.acknowledged, fun task ht => ?_⟩
  obtain ⟨hplace, upload, hu, hcase⟩ := hreading.tasks task ht
  exact ⟨hplace, upload, hu, hcase.imp_left fun hlt => hlt.trans_le hle⟩

theorem Durable.arrive (h : s.Durable chain first published) {i : Nat}
    (hstep : s.step E chain maxActive maxInFlight (.arrive i) = some s') : ∃ published', s'.Durable chain first published' := by
  obtain ⟨request, hrequest, rfl⟩ := Option.map_eq_some_iff.1 hstep
  obtain ⟨b, hb, hbrings⟩ := h.late request (List.mem_of_getElem? hrequest)
  have hle := Nat.le_max_left published b
  have hrows := s.store.rows_subset_apply request
  refine ⟨max published b, h.later hle (Nat.max_le.2 ⟨h.captured, hb⟩) (h.store.apply hbrings le_rfl) hrows Iff.rfl
    fun c hc => ?_⟩
  obtain ⟨base, hconnected, hreading⟩ := h.connected c hc
  exact ⟨base, hconnected.mono hle hrows, hreading.mono (List.prefix_refl _) rfl rfl hle fun q entry _ hentry _ => hentry⟩

theorem step_recoverState (h : s.step E chain maxActive maxInFlight .recoverState = some s') :
    s.connection = none ∧ s' = { s with recovered := some s.store.watermarks.state } := by
  simp only [step] at h
  split at h
  · cases h
  · rename_i hnone
    cases h
    exact ⟨hnone, rfl⟩

theorem step_recoverTransactions (h : s.step E chain maxActive maxInFlight .recoverTransactions = some s') :
    s.connection = none ∧ ∃ state, s.recovered = some state ∧ s' = { s with
      connection := some (.connect ⟨state, s.store.watermarks.transactions⟩), recovered := none } := by
  simp only [step] at h
  split at h
  · rename_i state hnone hstate
    cases h
    exact ⟨hnone, state, hstate, rfl⟩
  · cases h

theorem Durable.recoverState (h : s.Durable chain first published)
    (hstep : s.step E chain maxActive maxInFlight .recoverState = some s') : s'.Durable chain first published := by
  obtain ⟨hnone, rfl⟩ := step_recoverState hstep
  refine ⟨h.queue, h.node, h.store, h.captured, h.acknowledged, h.finished, h.late, ?_, h.disconnected, ?_⟩
  · intro c hc
    obtain ⟨base, hconnected, hreading⟩ := h.connected c hc
    exact ⟨base, hconnected, hreading.mono (List.prefix_refl _) rfl rfl le_rfl fun q entry _ hentry _ => hentry⟩
  · rintro state ⟨⟩
    exact ⟨hnone, published, h.store.begun, le_rfl, congrArg StoreWatermarks.state h.store.watermarks, h.acknowledged⟩

theorem Durable.recoverTransactions (h : s.Durable chain first published)
    (hstep : s.step E chain maxActive maxInFlight .recoverTransactions = some s') : s'.Durable chain first published := by
  obtain ⟨hnone, state, hstate, rfl⟩ := step_recoverTransactions hstep
  obtain ⟨-, k, hfirst, hk, rfl, hacknowledged⟩ := h.recovering state hstate
  obtain ⟨hreader, htasks⟩ := h.disconnected hnone
  refine ⟨h.queue, h.node, h.store, h.captured, h.acknowledged, h.finished, h.late, ?_, by rintro ⟨⟩, by rintro _ ⟨⟩⟩
  rintro c ⟨⟩
  refine ⟨k, Connection.connect_connected h.store hfirst hk, ?_, ?_, ?_, ?_⟩
  · intro q hq
    change q < s.queue.reader at hq
    omega
  · rintro n upload ⟨⟩
  · intro q entry _ hentry hack
    exact hacknowledged entry (List.mem_of_getElem? hentry) hack
  · intro task ht
    change task ∈ s.tasks at ht
    rw [htasks] at ht
    cases ht

/-- A task that returns was signalled, or its block was there. -/
theorem Durable.finish (hchain : Consecutive chain) (h : s.Durable chain first published) {position : Nat}
    (hstep : s.step E chain maxActive maxInFlight (.finish position) = some s') : s'.Durable chain first published := by
  simp only [step] at hstep
  split at hstep
  case h_2 => cases hstep
  rename_i c task hconnection hfind
  split at hstep
  case isFalse => cases hstep
  rename_i hsignalled
  split at hstep
  · cases hstep
  rename_i queue hqueue
  cases hstep
  have hconsistent := h.queue.step hchain.state hqueue
  simp only [UploadQueue.step] at hqueue
  split at hqueue
  case isFalse => cases hqueue
  cases hqueue
  obtain ⟨base, hconnected, hreading⟩ := h.connected c hconnection
  obtain rfl : task.position = position := by simpa using List.find?_some hfind
  obtain ⟨hplace, upload, hu, hcase⟩ := hreading.tasks task (List.mem_of_find?_eq_some hfind)
  have hpublished : upload.index < published := by
    rcases hcase with hlt | ⟨n, hn, hget⟩
    · exact hlt
    · rw [hn, Option.all_some, decide_eq_true_eq] at hsignalled
      rw [(hconnected.handed hget).index hchain]
      rcases hconnected with hfollows | hstalled
      · exact hfollows.signalled hsignalled
      · rw [hstalled.handed] at hget
        cases hget
  constructor
  · exact hconsistent
  · exact h.node
  · exact h.store
  · exact h.captured
  · exact h.acknowledged
  · intro i hi
    rcases List.mem_append.1 hi with hi | hi
    · exact h.finished i hi
    · obtain rfl := List.mem_singleton.1 hi
      exact ⟨hplace, upload, hu, hpublished⟩
  · exact h.late
  · intro c' hc'
    change s.connection = some c' at hc'
    rw [hconnection] at hc'
    cases hc'
    exact ⟨base, hconnected, hreading.read, hreading.handed, hreading.acknowledged,
      fun task' ht => hreading.tasks task' (List.mem_of_mem_erase ht)⟩
  · intro hnone
    change s.connection = none at hnone
    rw [hconnection] at hnone
    cases hnone
  · exact h.recovering

theorem Durable.acknowledge (hchain : Consecutive chain) (h : s.Durable chain first published) {position : Nat}
    (hstep : s.step E chain maxActive maxInFlight (.acknowledge position) = some s') : s'.Durable chain first published := by
  simp only [step] at hstep
  split at hstep
  · cases hstep
  rename_i queue hqueue
  cases hstep
  have hconsistent := h.queue.step hchain.state hqueue
  simp only [UploadQueue.step, Node.step] at hqueue
  split at hqueue
  case isFalse => cases hqueue
  rename_i hposition
  cases hqueue
  obtain ⟨hplace, upload, hu, hlt⟩ := h.finished position hposition
  set node : Node C D :=
    { s.queue.node with queue := s.queue.node.queue.modify position fun entry => { entry with acknowledged := true } }
  have huploads : node.uploads = s.queue.node.uploads := Node.uploads_acknowledge s.queue.node.queue position
  have hother : ∀ (q : Nat) (entry : QueueEntry C D), q ≠ position → node.queue[q]? = some entry →
      s.queue.node.queue[q]? = some entry := by
    intro q entry hne hentry
    rw [List.getElem?_modify_ne _ _ (Ne.symm hne)] at hentry
    exact hentry
  have hgrown : s.queue.node.uploads <+: node.uploads := huploads ▸ List.prefix_refl _
  constructor
  · exact hconsistent
  · exact h.node.acknowledge position
  · exact h.store
  · exact huploads ▸ h.captured
  · intro entry hentry hack
    obtain ⟨q, hq⟩ := List.mem_iff_getElem?.1 hentry
    by_cases hown : q = position
    · -- the acknowledged entry is that of the finished task
      have hget : node.uploads[q]? = some entry.upload := by
        rw [Node.uploads, List.getElem?_map, hq]
        rfl
      rw [huploads, hown, hu] at hget
      cases hget
      exact hlt
    · exact h.acknowledged entry (List.mem_of_getElem? (hother q entry hown hq)) hack
  · intro i hi
    obtain ⟨hi', u, hget, hlt⟩ := h.finished i (List.mem_of_mem_erase hi)
    exact ⟨hi', u, getElem?_of_extends hgrown hget, hlt⟩
  · intro request hr
    obtain ⟨b, hb, hbrings⟩ := h.late request hr
    exact ⟨b, huploads.symm ▸ hb, hbrings⟩
  · intro c hc
    obtain ⟨base, hconnected, hreading⟩ := h.connected c hc
    refine ⟨base, hconnected, hreading.mono hgrown rfl rfl le_rfl fun q entry hq hentry _ => ?_⟩
    exact hother q entry (by omega) hentry
  · exact h.disconnected
  · -- a finished task has a publisher
    intro state hstate
    obtain ⟨hnone, -⟩ := h.recovering state hstate
    obtain ⟨hzero, -⟩ := h.disconnected hnone
    omega

/-- An event of the producer changes the queue, and a crash disconnects the publisher. -/
theorem step_produce {event : NodeEvent} (h : s.step E chain maxActive maxInFlight (.produce event) = some s') :
    s.answers chain event = true ∧ ∃ queue, s.queue.step chain maxActive (.produce event) = some queue ∧
      (((∃ lost, event = .crash lost) ∧ s' = s.crashed queue) ∨
        ((∀ lost, event ≠ .crash lost) ∧ s' = { s with queue := queue })) := by
  simp only [step] at h
  split at h
  case isFalse => cases h
  rename_i hanswers
  refine ⟨hanswers, ?_⟩
  split at h
  · cases h
  · rename_i queue lost hqueue
    cases h
    exact ⟨queue, hqueue, .inl ⟨⟨lost, rfl⟩, rfl⟩⟩
  · rename_i queue hcrash hqueue
    cases h
    exact ⟨queue, hqueue, .inr ⟨hcrash, rfl⟩⟩

theorem Durable.step (hchain : Consecutive chain) (h : s.Durable chain first published) {event : IndexingEvent}
    (hproves : event.Proves) (hstep : s.step E chain maxActive maxInFlight event = some s') :
    ∃ published', s'.Durable chain first published' := by
  cases event with
  | recoverState => exact ⟨published, h.recoverState hstep⟩
  | recoverTransactions => exact ⟨published, h.recoverTransactions hstep⟩
  | start => exact ⟨published, h.start hchain hstep⟩
  | publish event => exact h.publish hchain hstep
  | finish position => exact ⟨published, h.finish hchain hstep⟩
  | acknowledge position => exact ⟨published, h.acknowledge hchain hstep⟩
  | arrive i => exact h.arrive hstep
  | produce event =>
    refine ⟨published, ?_⟩
    obtain ⟨hanswers, queue, hqueue, hcases⟩ := step_produce hstep
    have hconsistent := h.queue.step hchain.state hqueue
    simp only [UploadQueue.step] at hqueue
    split at hqueue
    · cases hqueue
    rename_i node hnode
    rcases hcases with ⟨⟨lost, rfl⟩, rfl⟩ | ⟨hcrash, rfl⟩
    · cases hqueue
      exact h.crash hchain hconsistent (Node.step_crash hnode) rfl rfl
    · have hack : ∀ i, event ≠ .acknowledge i := by
        rintro i rfl
        cases hqueue
      obtain ⟨hcapturing, hentries⟩ := h.node.step hchain h.queue.node (by rintro env rfl; exact hproves)
        (by rintro env rfl hphase; exact h.asked hchain hphase hanswers) hcrash hack hnode
      obtain ⟨rfl, hreader, hfinished⟩ : queue.node = node ∧ queue.reader = s.queue.reader ∧
          queue.finished = s.queue.finished := by
        cases event with
        | acknowledge i => exact absurd rfl (hack i)
        | crash lost => exact absurd rfl (hcrash lost)
        | deliver | retry | write | writeFailed | persist | complete =>
          cases hqueue
          exact ⟨rfl, rfl, rfl⟩
      exact h.produce hconsistent hcapturing hentries hreader hfinished

/-- A run of the system, from a Store that has the blocks before `first`. -/
def Runs (E : Env D) (chain : List (SealedBlock C D)) (first maxActive maxInFlight : Nat) (events : List IndexingEvent)
    (s : Indexing C D) : Prop :=
  Trace (fun s event s' => event.Proves ∧ s.step E chain maxActive maxInFlight event = some s') (fresh chain first) events s

/-- A run in which no request of an earlier process arrives between the two reads of a connecting publisher. -/
def UndisturbedRuns (E : Env D) (chain : List (SealedBlock C D)) (first maxActive maxInFlight : Nat)
    (events : List IndexingEvent) (s : Indexing C D) : Prop :=
  Trace (fun s event s' => (event.Proves ∧ s.Undisturbed event) ∧ s.step E chain maxActive maxInFlight event = some s')
    (fresh chain first) events s

theorem Runs.durable (hchain : Consecutive chain) (hfirst : first ≤ chain.length) {events : List IndexingEvent}
    (h : Runs E chain first maxActive maxInFlight events s) : ∃ published, s.Durable chain first published := by
  refine Trace.invariant (I := fun s : Indexing C D => ∃ published, s.Durable chain first published) ?_
    ⟨first, fresh_durable hfirst⟩ h
  rintro s event s' ⟨published, hs⟩ ⟨hproves, hstep⟩
  exact hs.step hchain hproves hstep

end Steps

/-! ## Publishers that stay out of step -/

section Mixed

variable {E : Env D} {chain : List (SealedBlock C D)} {first published maxActive maxInFlight : Nat} {s s' : Indexing C D}

/-- The events that neither connect nor disconnect a publisher, nor reach it, leave it as it is. -/
theorem step_elsewhere {event : IndexingEvent} (h : s.step E chain maxActive maxInFlight event = some s')
    (hcrash : ∀ lost, event ≠ .produce (.crash lost)) (hstate : event ≠ .recoverState)
    (htransactions : event ≠ .recoverTransactions) (hstart : event ≠ .start) (hpublish : ∀ e, event ≠ .publish e) :
    s'.connection = s.connection ∧ s'.recovered = s.recovered ∧ (s'.store = s.store ∨ ∃ i, event = .arrive i) := by
  cases event with
  | recoverState => exact absurd rfl hstate
  | recoverTransactions => exact absurd rfl htransactions
  | start => exact absurd rfl hstart
  | publish e => exact absurd rfl (hpublish e)
  | arrive i =>
    obtain ⟨request, -, rfl⟩ := Option.map_eq_some_iff.1 h
    exact ⟨rfl, rfl, .inr ⟨i, rfl⟩⟩
  | acknowledge position =>
    simp only [step] at h
    split at h
    · cases h
    · cases h
      exact ⟨rfl, rfl, .inl rfl⟩
  | finish position =>
    simp only [step] at h
    split at h
    case h_2 => cases h
    split at h
    case isFalse => cases h
    split at h
    · cases h
    · cases h
      exact ⟨rfl, rfl, .inl rfl⟩
  | produce event =>
    obtain ⟨-, queue, -, ⟨⟨lost, rfl⟩, -⟩ | ⟨-, rfl⟩⟩ := step_produce h
    · exact absurd rfl (hcrash lost)
    · exact ⟨rfl, rfl, .inl rfl⟩

/-- A publisher with mixed positions is one that was connected in the middle of a late request. -/
theorem Durable.stalled (hchain : Consecutive chain) (h : s.Durable chain first published) {c : Connection C D}
    (hc : s.connection = some c) (hmixed : c.Mixed chain) :
    ∃ base, c.Stalled chain first published base ∧ s.Reading published base c := by
  obtain ⟨base, hfollows | hstalled, hreading⟩ := h.connected c hc
  · exact absurd hmixed (Connection.not_mixed hchain (hfollows.handed_le h.store) hfollows.next)
  · exact ⟨base, hstalled, hreading⟩

/-- Only a crash replaces it. -/
theorem Durable.mixed_stays (hchain : Consecutive chain) (h : s.Durable chain first published) {c : Connection C D}
    (hc : s.connection = some c) (hmixed : c.Mixed chain) {event : IndexingEvent}
    (hcrash : ∀ lost, event ≠ .produce (.crash lost)) (hstep : s.step E chain maxActive maxInFlight event = some s') :
    s'.connection = some c := by
  obtain ⟨base, hstalled, hreading⟩ := h.stalled hchain hc hmixed
  cases event with
  | recoverState =>
    obtain ⟨hnone, -⟩ := step_recoverState hstep
    cases hnone.symm.trans hc
  | recoverTransactions =>
    obtain ⟨hnone, -⟩ := step_recoverTransactions hstep
    cases hnone.symm.trans hc
  | start =>
    obtain ⟨c', position, queue, upload, completion, publisher, hconnection, hnext, -, hu, henqueued, rfl⟩ := step_start hstep
    obtain rfl := Option.some.inj (hc.symm.trans hconnection)
    obtain ⟨-, -, _, hu', hcaptured, hle⟩ := h.next_place hstalled.begun hreading hnext
    obtain rfl := Option.some.inj (hu.symm.trans hu')
    rw [hstalled.handed, List.length_nil, Nat.add_zero] at hle
    rcases hstalled.enqueue hchain h.store.bounded hcaptured hle with ⟨-, henqueue⟩ | hrefused
    · cases henqueued.symm.trans henqueue
      rfl
    · cases henqueued.symm.trans hrefused
  | publish e =>
    obtain ⟨c', publishing, hconnection, hallows, hpublishing, -⟩ := step_publish hstep
    obtain rfl := Option.some.inj (hc.symm.trans hconnection)
    cases (hstalled.publish_none hallows).symm.trans hpublishing
  | produce | finish | acknowledge | arrive =>
    obtain ⟨hsame, -⟩ := step_elsewhere hstep hcrash (by rintro ⟨⟩) (by rintro ⟨⟩) (by rintro ⟨⟩) (by rintro _ ⟨⟩)
    exact hsame.trans hc

/-- What a connecting publisher has read is still the watermark, and the one that is connected is in step. -/
structure InStep (chain : List (SealedBlock C D)) (s : Indexing C D) : Prop where
  recovered : ∀ state, s.recovered = some state → state = s.store.watermarks.state
  connected : ∀ c, s.connection = some c → ¬c.Mixed chain

theorem InStep.step (hchain : Consecutive chain) (h : s.InStep chain) (hs : s.Durable chain first published)
    {event : IndexingEvent} (hundisturbed : s.Undisturbed event)
    (hstep : s.step E chain maxActive maxInFlight event = some s') : s'.InStep chain := by
  by_cases hcrash : ∃ lost, event = .produce (.crash lost)
  · obtain ⟨lost, rfl⟩ := hcrash
    obtain ⟨-, queue, -, ⟨-, rfl⟩ | ⟨hne, -⟩⟩ := step_produce hstep
    · exact ⟨by rintro state ⟨⟩, by rintro c ⟨⟩⟩
    · exact absurd rfl (hne lost)
  cases event with
  | recoverState =>
    obtain ⟨-, rfl⟩ := step_recoverState hstep
    exact ⟨by rintro state ⟨⟩; rfl, h.connected⟩
  | recoverTransactions =>
    obtain ⟨-, state, hstate, rfl⟩ := step_recoverTransactions hstep
    refine ⟨by rintro _ ⟨⟩, ?_⟩
    rintro c ⟨⟩
    rw [h.recovered state hstate]
    exact Connection.not_mixed hchain hs.store.bounded (Connection.connect_follows hs.store).next
  | start =>
    obtain ⟨c, position, queue, upload, completion, publisher, hconnection, hnext, -, hu, henqueued, rfl⟩ := step_start hstep
    refine ⟨h.recovered, ?_⟩
    rintro c' ⟨⟩
    obtain ⟨base, hconnected, hreading⟩ := hs.connected c hconnection
    obtain ⟨_, hu', hcaptured, hanswer⟩ := hs.next_entry hchain hconnected hreading hnext
    obtain rfl := Option.some.inj (hu.symm.trans hu')
    rcases hanswer with ⟨-, -, henqueue⟩ | ⟨-, -, henqueue⟩ | ⟨-, hrefused⟩
    · cases henqueued.symm.trans henqueue
      exact h.connected c hconnection
    · cases henqueued.symm.trans henqueue
      exact Connection.not_mixed hchain (List.getElem?_eq_some_iff.1 hcaptured.block).1 rfl
    · cases henqueued.symm.trans hrefused
  | publish e =>
    obtain ⟨c, publishing, hconnection, -, -, rfl⟩ := step_publish hstep
    refine ⟨fun state hstate => ?_, ?_⟩
    · cases (hs.recovered_none hconnection).symm.trans hstate
    · rintro c' ⟨⟩
      exact h.connected c hconnection
  | produce | finish | acknowledge | arrive =>
    obtain ⟨hconnection, hrecovered, hstore⟩ := step_elsewhere hstep (fun lost heq => hcrash ⟨lost, heq⟩) (by rintro ⟨⟩)
      (by rintro ⟨⟩) (by rintro ⟨⟩) (by rintro _ ⟨⟩)
    refine ⟨fun state hstate => ?_, fun c hc => h.connected c (hconnection ▸ hc)⟩
    rw [hrecovered] at hstate
    rcases hstore with hstore | ⟨i, heq⟩
    · rw [hstore]
      exact h.recovered state hstate
    · rw [heq] at hundisturbed
      cases hstate.symm.trans hundisturbed

theorem UndisturbedRuns.inStep (hchain : Consecutive chain) (hfirst : first ≤ chain.length) {events : List IndexingEvent}
    (h : UndisturbedRuns E chain first maxActive maxInFlight events s) : s.InStep chain := by
  refine (Trace.invariant (I := fun s : Indexing C D => (∃ published, s.Durable chain first published) ∧ s.InStep chain) ?_
    ⟨⟨first, fresh_durable hfirst⟩, by rintro state ⟨⟩, by rintro c ⟨⟩⟩ h).2
  rintro s event s' ⟨⟨published, hs⟩, hinStep⟩ ⟨⟨hproves, hundisturbed⟩, hstep⟩
  exact ⟨hs.step hchain hproves hstep, hinStep.step hchain hs hundisturbed hstep⟩

end Mixed

/-! ## Whole runs -/

/-- In every run, with crashes at any point and requests that arrive late: the watermarks in the Store are those
of a frontier of the chain, the rows of every block from `first` up to the frontier are in the Store, and so
is every block whose queue entry is acknowledged. -/
theorem indexed_blocks_durable {E : Env D} {chain : List (SealedBlock C D)} {first maxActive maxInFlight : Nat}
    (hchain : Consecutive chain) (hfirst : first ≤ chain.length) {events : List IndexingEvent} {s : Indexing C D}
    (h : Runs E chain first maxActive maxInFlight events s) :
    ∃ published, first ≤ published ∧ published ≤ chain.length ∧ s.store.watermarks = watermarksAt chain published ∧
      (∀ j block, first ≤ j → j < published → chain[j]? = some block →
        ∃ upload ∈ s.store.rows, upload.block = block) ∧
      ∀ entry ∈ s.queue.node.queue, entry.acknowledged = true →
        entry.upload.height.toNat ≤ published ∧ ∃ upload ∈ s.store.rows, upload.block = entry.upload.block := by
  obtain ⟨published, hs⟩ := h.durable hchain hfirst
  refine ⟨published, hs.store.begun, hs.store.bounded, hs.store.watermarks, ?_, ?_⟩
  · intro j block hj hlt hblock
    obtain ⟨upload, hu, hcaptured⟩ := hs.store.rows j hj hlt
    refine ⟨upload, hu, ?_⟩
    have hsame := hcaptured.block
    rw [hblock] at hsame
    exact (Option.some.inj hsame).symm
  · intro entry hentry hack
    have hlt := hs.acknowledged entry hentry hack
    have hmem : entry.upload ∈ s.queue.node.uploads := List.mem_map_of_mem hentry
    obtain ⟨position, hposition⟩ := List.getElem?_of_mem hmem
    obtain ⟨upload, hu, hcaptured⟩ := hs.store.rows entry.upload.index (hs.node.order.first_le hposition) hlt
    refine ⟨?_, upload, hu, ?_⟩
    · unfold QueuedFinalizedUpload.index at hlt
      omega
    · exact Option.some.inj (hcaptured.block.symm.trans (hs.node.order.captured _ hmem).block)

/-- In every run the publisher takes the next entry the consumer reads, and never panics, unless its positions are
mixed. The entry then is one whose block the Store has, or the next upload of the publisher, which starts where the
publisher stands and moves it to the end of its block. A publisher with mixed positions takes only entries of the
first kind, answers that it is out of step to the others, and stays until the process crashes; there is none if no
request of an earlier process reached the Store between the two reads of a connecting publisher. -/
theorem consumer_in_step {E : Env D} {chain : List (SealedBlock C D)} {first maxActive maxInFlight : Nat}
    (hchain : Consecutive chain) (hfirst : first ≤ chain.length) {events : List IndexingEvent} {s : Indexing C D}
    (h : Runs E chain first maxActive maxInFlight events s) {c : Connection C D} (hc : s.connection = some c) {position : Nat}
    (hnext : s.queue.next = some position) :
    (∃ upload : QueuedFinalizedUpload C D, s.queue.node.uploads[position]? = some upload ∧
      ((c.publisher.enqueue true upload = .ok (.ok .completed, c.publisher) ∧
          upload.block ∈ s.store.rows.map QueuedFinalizedUpload.block) ∨
        (¬c.Mixed chain ∧ ∃ publisher, c.publisher.enqueue true upload = .ok (.ok .waiting, publisher) ∧
          upload.stateStart = c.publisher.next.stateNext ∧ upload.transactionStart = c.publisher.next.transactionNext ∧
          publisher.next = ⟨upload.block.inner.header.stateRange.stop, upload.block.inner.header.transactionsRange.stop⟩ ∧
          publisher.handed = c.publisher.handed ++ [upload]) ∨
        (c.Mixed chain ∧ c.publisher.enqueue true upload = .ok
          (.error (.writerOutOfSync c.publisher.next.transactionNext upload.transactionStart), c.publisher)))) ∧
      (c.Mixed chain → ∀ event s', s.step E chain maxActive maxInFlight event = some s' →
        (∃ lost, event = .produce (.crash lost)) ∨ s'.connection = some c) ∧
      (UndisturbedRuns E chain first maxActive maxInFlight events s → ¬c.Mixed chain) := by
  obtain ⟨published, hs⟩ := h.durable hchain hfirst
  refine ⟨?_, fun hmixed event s' hstep => ?_, fun hundisturbed => (hundisturbed.inStep hchain hfirst).connected c hc⟩
  · obtain ⟨base, hconnected, hreading⟩ := hs.connected c hc
    obtain ⟨upload, hu, hcaptured, hanswer⟩ := hs.next_entry hchain hconnected hreading hnext
    refine ⟨upload, hu, ?_⟩
    rcases hanswer with ⟨-, hlt, henqueue⟩ | ⟨hfollows, hindex, henqueue⟩ | ⟨hstalled, hrefused⟩
    · refine .inl ⟨henqueue, ?_⟩
      obtain ⟨upload', hu', hcaptured'⟩ := hs.store.rows upload.index (hs.node.order.first_le hu) hlt
      rw [Option.some.inj (hcaptured.block.symm.trans hcaptured'.block)]
      exact List.mem_map_of_mem hu'
    · have hnot := Connection.not_mixed hchain (hfollows.handed_le hs.store) hfollows.next
      refine .inr (.inl ⟨hnot, _, henqueue, ?_, ?_, endsAt_succ hcaptured.block, rfl⟩)
      · rw [hfollows.next, ← hindex]
        exact hcaptured.stateStart
      · rw [hfollows.next, ← hindex]
        exact hcaptured.transactionStart
    · exact .inr (.inr ⟨hstalled.isMixed hs.store.bounded, hrefused⟩)
  · by_cases hcrash : ∃ lost, event = .produce (.crash lost)
    · exact .inl hcrash
    · exact .inr (hs.mixed_stays hchain hc hmixed (fun lost heq => hcrash ⟨lost, heq⟩) hstep)

/-! ## A small instance -/

/-- A state database with as many operations as it is asked for. -/
def provingEnv : ProducerEnv where
  historicalProof start stop := some (List.replicate (stop.toNat - start.toNat) (.commitFloor none 0))
  now := 0
  nextLocations := ⟨0, 0⟩

theorem provingEnv_provesRanges : provingEnv.ProvesRanges := by
  rintro start stop operations ⟨⟩
  exact List.length_replicate

/-- Block 1 is queued and handed to the publisher, which sends its batch. -/
def sentUpload : List IndexingEvent :=
  [.produce .deliver, .produce (.write provingEnv), .produce .persist, .recoverState, .recoverTransactions, .start,
    .publish (.prepareState 2 true), .publish (.prepareTransactions 2 false), .publish (.send 1), .publish .receive]

/-- The Store applies the batch, and the process crashes before it hears of it. -/
def crashedUpload : List IndexingEvent :=
  sentUpload ++ [.publish (.attempt 0), .produce (.crash []), .recoverState, .recoverTransactions]

/-- The process crashes, and the Store applies the batch while the next publisher connects. -/
def disturbedUpload : List IndexingEvent :=
  sentUpload ++ [.produce (.crash []), .recoverState, .arrive 0, .recoverTransactions]

theorem sentUpload_proves : ∀ event ∈ sentUpload, event.Proves := by
  intro event hevent
  unfold sentUpload at hevent
  simp only [List.mem_cons, List.not_mem_nil, or_false] at hevent
  rcases hevent with rfl | rfl | rfl | rfl | rfl | rfl | rfl | rfl | rfl | rfl
  all_goals first | exact trivial | exact provingEnv_provesRanges

theorem crashedUpload_proves : ∀ event ∈ crashedUpload, event.Proves := by
  refine List.forall_mem_append.2 ⟨sentUpload_proves, ?_⟩
  simp [IndexingEvent.Proves]

theorem disturbedUpload_proves : ∀ event ∈ disturbedUpload, event.Proves := by
  refine List.forall_mem_append.2 ⟨sentUpload_proves, ?_⟩
  simp [IndexingEvent.Proves]

/-- Nothing arrives late. -/
theorem crashedUpload_undisturbed (s : Indexing Unit Nat) : ∀ event ∈ crashedUpload, s.Undisturbed event := by
  simp [crashedUpload, sentUpload, Undisturbed]

/-- The state those events lead to. -/
def after (events : List IndexingEvent) : Option (Indexing Unit Nat) :=
  run (Indexing.step countingApplication.env [sampleChild] 1 1) (fresh [sampleChild] 0) events

set_option maxRecDepth 20000 in
theorem after_crashedUpload : (after crashedUpload).map (fun s =>
    (s.store.watermarks, s.queue.next, s.connection.map fun c => c.publisher.next)) =
    some (⟨some 2, some 2⟩, some 0, some ⟨3, 3⟩) := by decide

set_option maxRecDepth 20000 in
theorem after_disturbedUpload : (after disturbedUpload).map (fun s =>
    (s.store.watermarks, s.queue.next, s.connection.map fun c => c.publisher.next)) =
    some (⟨some 2, some 2⟩, some 0, some ⟨0, 3⟩) := by decide

theorem exists_after {events : List IndexingEvent} {next : FinalizedUploadCursor}
    (hproves : ∀ event ∈ events, event.Proves) (h : (after events).map (fun s =>
      (s.store.watermarks, s.queue.next, s.connection.map fun c => c.publisher.next)) =
      some (⟨some 2, some 2⟩, some 0, some next)) :
    ∃ s c, Runs countingApplication.env [sampleChild] 0 1 1 events s ∧ s.store.watermarks = ⟨some 2, some 2⟩ ∧
      s.queue.next = some 0 ∧ s.connection = some c ∧ c.publisher.next = next := by
  obtain ⟨s, hs, heq⟩ := Option.map_eq_some_iff.1 h
  simp only [Prod.mk.injEq] at heq
  obtain ⟨hwatermarks, hnext, hc⟩ := heq
  obtain ⟨c, hc, hpositions⟩ := Option.map_eq_some_iff.1 hc
  have hruns := (trace_of_run hs).imp_of_mem fun event hmem _ _ hstep => And.intro (hproves event hmem) hstep
  exact ⟨s, c, hruns, hwatermarks, hnext, hc, hpositions⟩

theorem indexed_blocks_durable_sample : ∃ s, Runs countingApplication.env [sampleChild] 0 1 1 crashedUpload s ∧
    s.store.watermarks = ⟨some 2, some 2⟩ ∧
    ∃ published, s.store.watermarks = watermarksAt [sampleChild] published ∧
      ∀ j block, j < published → [sampleChild][j]? = some block → ∃ upload ∈ s.store.rows, upload.block = block := by
  obtain ⟨s, c, hruns, hwatermarks, -⟩ := exists_after crashedUpload_proves after_crashedUpload
  obtain ⟨published, -, -, hstore, hrows, -⟩ := indexed_blocks_durable consecutive_sample (Nat.zero_le 1) hruns
  exact ⟨s, hruns, hwatermarks, published, hstore, fun j block => hrows j block (Nat.zero_le j)⟩

theorem consumer_in_step_sample : (∃ s c, UndisturbedRuns countingApplication.env [sampleChild] 0 1 1 crashedUpload s ∧
      s.connection = some c ∧ s.queue.next = some 0 ∧
      ∃ upload : QueuedFinalizedUpload Unit Nat, s.queue.node.uploads[0]? = some upload ∧
        ∃ completion publisher, c.publisher.enqueue true upload = .ok (.ok completion, publisher)) ∧
    ∃ s c, Runs countingApplication.env [sampleChild] 0 1 1 disturbedUpload s ∧ s.connection = some c ∧
      c.Mixed [sampleChild] ∧ ∀ event s', s.step countingApplication.env [sampleChild] 1 1 event = some s' →
        (∃ lost, event = .produce (.crash lost)) ∨ s'.connection = some c := by
  constructor
  · obtain ⟨s, c, hruns, -, hnext, hc, -⟩ := exists_after crashedUpload_proves after_crashedUpload
    have hundisturbed : UndisturbedRuns countingApplication.env [sampleChild] 0 1 1 crashedUpload s :=
      hruns.imp_of_mem fun event hmem s s' hstep => ⟨⟨hstep.1, crashedUpload_undisturbed s event hmem⟩, hstep.2⟩
    obtain ⟨⟨upload, hu, hcases⟩, -, hmixed⟩ := consumer_in_step consecutive_sample (Nat.zero_le 1) hruns hc hnext
    refine ⟨s, c, hundisturbed, hc, hnext, upload, hu, ?_⟩
    rcases hcases with ⟨hdone, -⟩ | ⟨-, publisher, hnew, -⟩ | ⟨hout, -⟩
    · exact ⟨_, _, hdone⟩
    · exact ⟨_, _, hnew⟩
    · exact absurd hout (hmixed hundisturbed)
  · obtain ⟨s, c, hruns, -, hnext, hc, hpositions⟩ := exists_after disturbedUpload_proves after_disturbedUpload
    have hmixed : c.Mixed [sampleChild] := ⟨0, 1, Nat.zero_lt_one, le_rfl, hpositions.trans (by decide)⟩
    obtain ⟨-, hstays, -⟩ := consumer_in_step consecutive_sample (Nat.zero_le 1) hruns hc hnext
    exact ⟨s, c, hruns, hc, hmixed, hstays hmixed⟩

end Indexing

end Constantinople
