import AsioLearn.Daytime.UdpHandlers

/-!
# The replies of `udp_server`

All requests share `remote_endpoint_`, and any number of replies may be outstanding. A reply copies
its destination before the next receive is started, and its handler holds its message.

* `answersEach_of_run`: every reply goes to the sender of its datagram, in order, and its message is
  alive and as it was made until its handler has run.
-/

namespace AsioLearn.Daytime.UdpHandlers

open Proactor Shared Lts UdpServer

/-! ## Routing -/

/-- The handler under way has a datagram to answer. -/
def Pc.answers : Pc → Bool
  | .asyncSendTo _ _ => true
  | _ => false

/-- The datagrams that have been received and are not answered yet. -/
def unanswered (s : State) : ℕ := UdpServer.unanswered s.toState + s.pc.answers.toNat

section

variable {s s' : State}

theorem unanswered_of_not_answers (hpc : s.pc.answers = false) :
    unanswered s = UdpServer.unanswered s.toState := by
  unfold unanswered
  rw [hpc]
  rfl

/-- What whole handlers keep is kept between their statements: before `async_send_to` the datagram
of the handler is the one that is not answered. -/
theorem routed_of_finish (h : Routed (finish s)) :
    senders s.toState = destinations s.toState ++ List.replicate (unanswered s) s.remoteEndpoint ∧
      unanswered s ≤ 1 := by
  cases hpc : s.pc with
  | asyncSendTo message text =>
    unfold finish at h
    rw [hpc] at h
    set u := UdpServer.asyncSendTo message text s.toState with hu
    have hone : receives (UdpServer.startReceive u) ≤ 1 := h.one
    have hsenders : senders u = (replies u).map Reply.destination ++
        List.replicate (UdpServer.unanswered (UdpServer.startReceive u)) s.remoteEndpoint :=
      h.senders
    rw [receives_startReceive, hu, receives_asyncSendTo] at hone
    have hzero : UdpServer.unanswered s.toState = 0 := by
      have hle := unanswered_le_receives s.toState
      omega
    have hthis : unanswered s = 1 := by
      unfold unanswered
      rw [hzero, hpc]
      rfl
    rw [unanswered_startReceive, hu, senders_asyncSendTo, replies_asyncSendTo,
      unanswered_asyncSendTo, hzero, List.map_append, List.replicate_zero,
      List.append_nil] at hsenders
    rw [hthis]
    exact ⟨hsenders, Nat.le_refl 1⟩
  | startReceive message =>
    rw [unanswered_of_not_answers (by rw [hpc]; rfl)]
    unfold finish at h
    rw [hpc] at h
    have hone : receives (UdpServer.startReceive s.toState) ≤ 1 := h.one
    have hsenders : senders s.toState = destinations s.toState ++
        List.replicate (UdpServer.unanswered (UdpServer.startReceive s.toState))
          s.remoteEndpoint := h.senders
    rw [receives_startReceive] at hone
    rw [unanswered_startReceive] at hsenders
    have hle := unanswered_le_receives s.toState
    exact ⟨hsenders, by omega⟩
  | idle | endOfReceive | handleSend | endOfSend =>
    rw [unanswered_of_not_answers (by rw [hpc]; rfl)]
    unfold finish at h
    rw [hpc] at h
    exact ⟨h.senders, Nat.le_trans (unanswered_le_receives s.toState) h.one⟩

theorem senders_finish (s : State) : senders (finish s) = senders s.toState := by
  unfold finish
  cases s.pc with
  | asyncSendTo message text => exact senders_asyncSendTo message text s.toState
  | idle | startReceive | endOfReceive | handleSend | endOfSend => rfl

/-- The step is made by the io thread. -/
def OnIoThread (_ : State) : Label → Prop
  | .run _ _ | .goOn => True
  | .complete _ _ | .overwrite _ => False

instance (s : State) : ∀ l : Label, Decidable (OnIoThread s l)
  | .run _ _ | .goOn => isTrue trivial
  | .complete _ _ | .overwrite _ => isFalse id

/-- The statements that are left of the handler under way. -/
def Pc.left : Pc → ℕ
  | .idle => 0
  | .endOfReceive _ | .endOfSend _ => 1
  | .startReceive _ | .handleSend _ => 2
  | .asyncSendTo _ _ => 3

theorem exists_goOn (hleft : 0 < s.pc.left) :
    ∃ t, step s .goOn = some t ∧ t.pc.left + 1 = s.pc.left := by
  obtain ⟨t, hs⟩ : ∃ t, step s .goOn = some t := by
    show ∃ t, goOn s = some t
    unfold goOn
    cases hpc : s.pc with
    | idle => exact absurd hleft (by simp [hpc, Pc.left])
    | asyncSendTo | startReceive | endOfReceive | handleSend | endOfSend => exact ⟨_, rfl⟩
  refine ⟨t, hs, ?_⟩
  cases moves_of_step hs with
  | asyncSendTo message text hpc => rw [hpc]; rfl
  | startReceive message hpc | endOfReceive message hpc | handleSend message hpc
  | endOfSend message hpc => rw [hpc]; rfl

/-- The handler under way comes to its end. -/
theorem possible_idle (s : State) :
    Possible step OnIoThread (fun t => t.pc = .idle ∧ finish t = finish s) s := by
  induction hn : s.pc.left generalizing s with
  | zero =>
    refine possible_of_now ⟨?_, rfl⟩
    cases hpc : s.pc with
    | idle => rfl
    | _ => exact absurd hn (by simp [hpc, Pc.left])
  | succ n ih =>
    obtain ⟨t, hs, hleft⟩ := exists_goOn (s := s) (by omega)
    have hok : OnIoThread s .goOn := trivial
    apply possible_of_step hok hs
    rw [← finish_goOn hs]
    exact ih t (by omega)

/-- The io thread answers a datagram that has been received, whether or not anything else completes
meanwhile. -/
theorem possible_answered (h : Routed (finish s)) : Possible step OnIoThread
    (fun t => unanswered t = 0 ∧ senders t.toState = senders s.toState) s := by
  apply (possible_idle s).bind
  rintro t ⟨hpc, hfinish⟩
  have hsame : senders t.toState = senders s.toState := by
    rw [← senders_finish, hfinish, senders_finish]
  have hone : receives t.toState ≤ 1 := by
    rw [← finish_idle hpc, hfinish]
    exact h.one
  by_cases hnone : t.ops.countP isReceived = 0
  · refine possible_of_now ⟨?_, hsame⟩
    rw [unanswered_of_not_answers (by rw [hpc]; rfl)]
    exact hnone
  · obtain ⟨op, hop, hreceived⟩ := List.countP_pos_iff.mp (Nat.pos_of_ne_zero hnone)
    obtain ⟨i, before, after, hpick⟩ := exists_pick hop
    obtain ⟨task, result⟩ := op
    simp only [isReceived, Bool.and_eq_true, Option.any_eq_true, Option.isNone_iff_eq_none]
      at hreceived
    obtain ⟨htask, r, rfl, hec⟩ := hreceived
    obtain rfl : task = .receive := by
      cases task with
      | receive => rfl
      | send message destination => exact absurd htask (by simp [Task.isReceive])
    have hrun : step t (.run i []) = some { t with
        messages := (t.messages.make []).2
        ops := before ++ after
        pc := .asyncSendTo t.messages.next [] } := by
      simp only [step, hpc, hpick, enter, hec]
      rfl
    have hok : ∀ u : State, OnIoThread u (.run i []) ∧ OnIoThread u .goOn :=
      fun _ => ⟨trivial, trivial⟩
    apply possible_of_step (hok t).1 hrun
    refine possible_of_step (hok _).2 rfl (possible_of_now ⟨?_, ?_⟩)
    · rw [unanswered_of_not_answers rfl]
      show UdpServer.unanswered (UdpServer.asyncSendTo _ _ _) = 0
      rw [unanswered_asyncSendTo]
      exact countP_isReceived_eq_zero hone (pick_eq_some hpick)
    · show senders (UdpServer.asyncSendTo _ _ _) = _
      rw [senders_asyncSendTo]
      exact hsame

end

/-! ## Messages -/

/-- The references to messages that the handler under way holds. -/
def Pc.held : Pc → List ℕ
  | .idle => []
  | .asyncSendTo message _ | .startReceive message | .endOfReceive message
  | .endOfSend message => [message]
  | .handleSend message => [message, message]

/-- The message of the reply whose handler is under way. -/
def Pc.sending : Pc → List ℕ
  | .handleSend message | .endOfSend message => [message]
  | _ => []

/-- The message that the handler of an operation holds. -/
def messageOf? (op : Op Task Result) : Option ℕ :=
  match op.task with
  | .receive => none
  | .send message _ => some message

/-- The references to messages there are. -/
def held (s : State) : List ℕ := s.pc.held ++ s.ops.filterMap messageOf?

/-- The messages of the replies whose handler has not run to its end. -/
def inFlight (s : State) : List ℕ := s.pc.sending ++ s.ops.filterMap messageOf?

/-- What holds of the messages between any two statements. -/
structure Kept (s : State) : Prop where
  counts : Counts (held s) s.messages
  alive : ∀ r ∈ replies s.toState, r.message ∈ s.sent ∨
    (r.message ∈ inFlight s ∧ s.messages.get r.message = some r.text)
  made : ∀ message text, s.pc = .asyncSendTo message text →
    s.messages.get message = some text ∧ ∀ r ∈ replies s.toState, r.message ≠ message
  own : ((replies s.toState).map Reply.message).Nodup
  fresh : ∀ r ∈ replies s.toState, r.message < s.messages.next
  copied : ∀ op ∈ s.ops, ∀ message destination, op.task = .send message destination →
    ∃ r ∈ replies s.toState, r.message = message ∧ r.destination = destination

section

variable {s s' : State}

/-- A step that starts no reply: what is in flight still is and has not changed, or its handler has
run. -/
theorem Kept.mono (h : Kept s) (hcounts : Counts (held s') s'.messages)
    (hreplies : replies s'.toState = replies s.toState) (hsent : s.sent ⊆ s'.sent)
    (hflight : ∀ message ∈ inFlight s, message ∈ s'.sent ∨
      (message ∈ inFlight s' ∧ s'.messages.get message = s.messages.get message))
    (hmade : ∀ message text, s'.pc = .asyncSendTo message text →
      s'.messages.get message = some text ∧ ∀ r ∈ replies s.toState, r.message ≠ message)
    (hnext : s.messages.next ≤ s'.messages.next)
    (hops : ∀ op ∈ s'.ops, op.task = .receive ∨ ∃ op' ∈ s.ops, op'.task = op.task) : Kept s' := by
  refine ⟨hcounts, ?_, ?_, ?_, ?_, ?_⟩
  · intro r hr
    rw [hreplies] at hr
    rcases h.alive r hr with hdone | ⟨hmem, hget⟩
    · exact Or.inl (hsent hdone)
    · rcases hflight r.message hmem with hdone | ⟨hmem', hsame⟩
      · exact Or.inl hdone
      · exact Or.inr ⟨hmem', hsame.trans hget⟩
  · intro message text hpc
    rw [hreplies]
    exact hmade message text hpc
  · rw [hreplies]
    exact h.own
  · intro r hr
    rw [hreplies] at hr
    exact Nat.lt_of_lt_of_le (h.fresh r hr) hnext
  · intro op hop message destination ht
    rw [hreplies]
    rcases hops op hop with hreceive | ⟨op', hop', htask⟩
    · exact absurd (hreceive.symm.trans ht) (by simp)
    · exact h.copied op' hop' message destination (htask.trans ht)

theorem mem_held_of_inFlight {message : ℕ} (h : message ∈ inFlight s) : message ∈ held s := by
  unfold inFlight at h
  unfold held
  rcases List.mem_append.mp h with h | h
  · apply List.mem_append_left
    cases hpc : s.pc with
    | handleSend m | endOfSend m =>
      rw [hpc] at h
      obtain rfl := List.mem_singleton.mp h
      exact List.mem_cons_self
    | idle | asyncSendTo | startReceive | endOfReceive =>
      rw [hpc] at h
      exact absurd h List.not_mem_nil
  · exact List.mem_append_right _ h

theorem kept_complete (h : Kept s) {before after : List (Op Task Result)} {t : Task}
    (hops : s.ops = before ++ ⟨t, none⟩ :: after) (out : Outcome) (res : Result) :
    Kept { s with
      toState := out.deliver t { s.toState with ops := before ++ ⟨t, some res⟩ :: after } } := by
  have hreplies := replies_deliver { s.toState with ops := before ++ ⟨t, some res⟩ :: after } out t
  obtain ⟨endpoint, es, -, hs⟩ :=
    deliver_eq { s.toState with ops := before ++ ⟨t, some res⟩ :: after } out t
  rw [hs] at hreplies ⊢
  have hcarried : (before ++ ⟨t, some res⟩ :: after).filterMap messageOf? =
      s.ops.filterMap messageOf? := by
    rw [hops, List.filterMap_append, List.filterMap_append]
    rfl
  have hheld : s.pc.held ++ (before ++ ⟨t, some res⟩ :: after).filterMap messageOf? = held s := by
    rw [hcarried]
    rfl
  refine h.mono ?_ hreplies (List.Subset.refl _) ?_ h.made (Nat.le_refl _) ?_
  · show Counts (s.pc.held ++ (before ++ ⟨t, some res⟩ :: after).filterMap messageOf?) s.messages
    rw [hheld]
    exact h.counts
  · intro message hmem
    refine Or.inr ⟨?_, rfl⟩
    show message ∈ s.pc.sending ++ (before ++ ⟨t, some res⟩ :: after).filterMap messageOf?
    rw [hcarried]
    exact hmem
  · intro op hop
    right
    rcases List.mem_append.mp hop with hop | hop
    · exact ⟨op, by rw [hops]; exact List.mem_append_left _ hop, rfl⟩
    · rcases List.mem_cons.mp hop with rfl | hop
      · exact ⟨⟨t, none⟩, by rw [hops]; simp, rfl⟩
      · exact ⟨op, by rw [hops]; exact mem_of_mem_rest (List.mem_append_right _ hop), rfl⟩

theorem held_idle (hpc : s.pc = .idle) : held s = s.ops.filterMap messageOf? := by
  unfold held
  rw [hpc]
  rfl

/-- A receive holds no message. -/
theorem carried_besides {before after : List (Op Task Result)} {res : Option Result}
    (hops : s.ops = before ++ ⟨.receive, res⟩ :: after) :
    (before ++ after).filterMap messageOf? = s.ops.filterMap messageOf? := by
  rw [hops, List.filterMap_append, List.filterMap_append]
  rfl

/-- The message of a reply that is about to be started is new. -/
theorem kept_makeMessage (h : Kept s) (hpc : s.pc = .idle) {before after : List (Op Task Result)}
    {r : Result} (hops : s.ops = before ++ ⟨.receive, some r⟩ :: after) (now : Bytes) :
    Kept { s with
      messages := (s.messages.make now).2
      ops := before ++ after
      pc := .asyncSendTo s.messages.next now } := by
  have hheld : held s = (before ++ after).filterMap messageOf? := by
    rw [held_idle hpc, carried_besides hops]
  refine h.mono ?_ rfl (List.Subset.refl _) ?_ ?_ (Nat.le_succ _) ?_
  · have hcounts := counts_make h.counts now
    rw [hheld] at hcounts
    exact hcounts
  · intro message hmem
    have hthere := mem_held_of_inFlight hmem
    refine Or.inr ⟨?_, h.counts.get_make now hthere⟩
    rw [hheld] at hthere
    exact hthere
  · intro message text hat
    obtain ⟨rfl, rfl⟩ := Pc.asyncSendTo.inj hat
    refine ⟨s.messages.get_make_self now, ?_⟩
    intro reply hreply heq
    exact absurd (h.fresh reply hreply) (by rw [heq]; exact Nat.lt_irrefl _)
  · intro op hop
    exact Or.inr ⟨op, by rw [hops]; exact mem_of_mem_rest hop, rfl⟩

theorem kept_enter (h : Kept s) (hpc : s.pc = .idle) {before after : List (Op Task Result)}
    {t : Task} {r : Result} (hops : s.ops = before ++ ⟨t, some r⟩ :: after) (now : Bytes) :
    Kept (enter now t r { s with ops := before ++ after }) := by
  have hrest : ∀ op ∈ before ++ after, op.task = .receive ∨ ∃ op' ∈ s.ops, op'.task = op.task :=
    fun op hop => Or.inr ⟨op, by rw [hops]; exact mem_of_mem_rest hop, rfl⟩
  cases t with
  | receive =>
    unfold enter
    cases r.ec with
    | none => exact kept_makeMessage h hpc hops now
    | some ec =>
      have hcarried := carried_besides hops
      refine h.mono ?_ rfl (List.Subset.refl _) ?_ h.made (Nat.le_refl _) hrest
      · show Counts (s.pc.held ++ (before ++ after).filterMap messageOf?) s.messages
        rw [hcarried]
        exact h.counts
      · intro message hmem
        refine Or.inr ⟨?_, rfl⟩
        show message ∈ s.pc.sending ++ (before ++ after).filterMap messageOf?
        rw [hcarried]
        exact hmem
  | send message destination =>
    have hcarried : (s.ops.filterMap messageOf?).Perm
        (message :: (before ++ after).filterMap messageOf?) := by
      rw [hops, List.filterMap_append, List.filterMap_append]
      exact List.perm_middle
    have hcounts : Counts (message :: (before ++ after).filterMap messageOf?) s.messages :=
      h.counts.congr fun p => by rw [held_idle hpc]; exact (hcarried.count_eq p).symm
    refine h.mono (counts_retain hcounts List.mem_cons_self) rfl (List.Subset.refl _) ?_
      (fun message text hat => absurd hat (by simp [enter])) (Nat.le_refl _) hrest
    intro m hmem
    refine Or.inr ⟨?_, s.messages.get_retain message m⟩
    have hin : m ∈ s.ops.filterMap messageOf? := by
      unfold inFlight at hmem
      rw [hpc] at hmem
      exact hmem
    exact hcarried.mem_iff.mp hin

/-- `async_send_to`: the message of a reply is held by its handler from now on. -/
theorem kept_asyncSendTo (h : Kept s) {message : ℕ} {text : Bytes}
    (hpc : s.pc = .asyncSendTo message text) :
    Kept { s with
      toState := UdpServer.asyncSendTo message text s.toState, pc := .startReceive message } := by
  obtain ⟨hget, hnew⟩ := h.made message text hpc
  have hreplies := replies_asyncSendTo message text s.toState
  have hheld : held s = message :: s.ops.filterMap messageOf? := by
    unfold held
    rw [hpc]
    rfl
  have hflight : inFlight s = s.ops.filterMap messageOf? := by
    unfold inFlight
    rw [hpc]
    rfl
  have hthere : message ∈ held s := by
    rw [hheld]
    exact List.mem_cons_self
  have hcarried : List.filterMap messageOf? (s.ops ++ [⟨.send message s.remoteEndpoint, none⟩]) =
      s.ops.filterMap messageOf? ++ [message] := List.filterMap_append
  refine ⟨?_, ?_, fun m text hat => absurd hat (by simp), ?_, ?_, ?_⟩
  · show Counts (message :: (s.ops ++ [_]).filterMap messageOf?) (s.messages.retain message)
    rw [hcarried]
    apply (counts_retain h.counts hthere).congr
    intro p
    rw [hheld]
    simp only [List.count_cons, List.count_append, List.count_nil]
    omega
  · intro r hr
    show r.message ∈ s.sent ∨ (r.message ∈ (s.ops ++ [_]).filterMap messageOf? ∧
      (s.messages.retain message).get r.message = some r.text)
    rw [hcarried, Heap.get_retain]
    rw [hreplies] at hr
    rcases List.mem_append.mp hr with hr | hr
    · refine (h.alive r hr).imp_right ?_
      rintro ⟨hmem, hold⟩
      rw [hflight] at hmem
      exact ⟨List.mem_append_left _ hmem, hold⟩
    · rw [List.mem_singleton.mp hr]
      exact Or.inr ⟨List.mem_append_right _ List.mem_cons_self, hget⟩
  · rw [hreplies, List.map_append]
    refine List.nodup_append.mpr ⟨h.own, by simp, ?_⟩
    intro m hm m' hm'
    obtain ⟨r, hr, rfl⟩ := List.mem_map.mp hm
    rw [List.mem_singleton.mp hm']
    exact hnew r hr
  · intro r hr
    rw [hreplies] at hr
    rcases List.mem_append.mp hr with hr | hr
    · exact h.fresh r hr
    · rw [List.mem_singleton.mp hr]
      exact h.counts.fresh message hthere
  · intro op hop m destination ht
    rw [hreplies]
    rcases List.mem_append.mp hop with hop | hop
    · obtain ⟨r, hr, hsame⟩ := h.copied op hop m destination ht
      exact ⟨r, List.mem_append_left _ hr, hsame⟩
    · rw [List.mem_singleton.mp hop] at ht
      obtain ⟨rfl, rfl⟩ := Task.send.inj ht
      exact ⟨_, List.mem_append_right _ List.mem_cons_self, rfl, rfl⟩

/-- `start_receive` holds no message. -/
theorem kept_startReceive (h : Kept s) {message : ℕ} (hpc : s.pc = .startReceive message) :
    Kept { s with toState := UdpServer.startReceive s.toState, pc := .endOfReceive message } := by
  have hcarried : List.filterMap messageOf? (s.ops ++ [⟨.receive, none⟩]) =
      s.ops.filterMap messageOf? := by
    rw [List.filterMap_append]
    exact List.append_nil _
  refine h.mono ?_ rfl (List.Subset.refl _) ?_ (fun m text hat => absurd hat (by simp))
    (Nat.le_refl _) ?_
  · have hcounts := h.counts
    unfold held at hcounts
    rw [hpc, ← hcarried] at hcounts
    exact hcounts
  · intro m hmem
    unfold inFlight at hmem
    rw [hpc, ← hcarried] at hmem
    exact Or.inr ⟨hmem, rfl⟩
  · intro op hop
    rcases List.mem_append.mp hop with hop | hop
    · exact Or.inr ⟨op, hop, rfl⟩
    · rw [List.mem_singleton.mp hop]
      exact Or.inl rfl

/-- The handler under way drops a reference: to the message of a reply whose handler holds another
one, or whose handler has run. -/
theorem kept_release (h : Kept s) {message : ℕ} {pc' : Pc} {sent' : List ℕ}
    (hheld : s.pc.held = message :: pc'.held) (hno : ∀ m text, pc' ≠ .asyncSendTo m text)
    (hsending : ∀ m ∈ s.pc.sending, m ∈ sent' ∨ m ∈ pc'.sending) (hsub : pc'.sending ⊆ pc'.held)
    (hsent : s.sent ⊆ sent') :
    Kept { s with messages := s.messages.release message, pc := pc', sent := sent' } := by
  have hcounts : Counts (message :: (pc'.held ++ s.ops.filterMap messageOf?)) s.messages := by
    have hall := h.counts
    unfold held at hall
    rwa [hheld] at hall
  refine h.mono (counts_release hcounts) rfl hsent ?_ (fun m text hat => absurd hat (hno m text))
    (Nat.le_refl _) fun op hop => Or.inr ⟨op, hop, rfl⟩
  intro m hmem
  rcases List.mem_append.mp hmem with hmem | hmem
  · rcases hsending m hmem with hdone | hstill
    · exact Or.inl hdone
    · exact Or.inr ⟨List.mem_append_left _ hstill,
        hcounts.get_release (List.mem_append_left _ (hsub hstill))⟩
  · exact Or.inr ⟨List.mem_append_right _ hmem,
      hcounts.get_release (List.mem_append_right _ hmem)⟩

theorem kept_goOn (h : Kept s) (hs : step s .goOn = some s') : Kept s' := by
  cases moves_of_step hs with
  | asyncSendTo message text hpc => exact kept_asyncSendTo h hpc
  | startReceive message hpc => exact kept_startReceive h hpc
  | endOfReceive message hpc =>
    refine kept_release h (by rw [hpc]; rfl) (by simp) ?_ (by simp [Pc.sending])
      (List.Subset.refl _)
    rw [hpc]
    exact fun m hm => absurd hm List.not_mem_nil
  | handleSend message hpc =>
    refine kept_release h (by rw [hpc]; rfl) (by simp) ?_ (by simp [Pc.sending, Pc.held])
      (List.Subset.refl _)
    rw [hpc]
    exact fun m hm => Or.inr hm
  | endOfSend message hpc =>
    refine kept_release h (by rw [hpc]; rfl) (by simp) ?_ (by simp [Pc.sending])
      (List.subset_append_left _ _)
    rw [hpc]
    exact fun m hm => Or.inl (List.mem_append_right _ hm)

/-- Every step keeps the messages. -/
theorem step_kept (h : Kept s) {l : Label} (hs : step s l = some s') : Kept s' := by
  cases l with
  | goOn => exact kept_goOn h hs
  | complete i out =>
    cases moves_of_step hs with
    | complete i out before after t res hp => exact kept_complete h (pick_eq_some hp) out res
  | overwrite endpoint =>
    cases moves_of_step hs with
    | overwrite endpoint hmem =>
      exact h.mono h.counts rfl (List.Subset.refl _) (fun m hm => Or.inr ⟨hm, rfl⟩) h.made
        (Nat.le_refl _) fun op hop => Or.inr ⟨op, hop, rfl⟩
  | run i now =>
    cases moves_of_step hs with
    | run i now before after t r hpc hp => exact kept_enter h hpc (pick_eq_some hp) now

theorem kept_init : Kept init := by
  refine ⟨counts_empty, ?_, ?_, List.nodup_nil, ?_, ?_⟩
  · intro r hr
    exact absurd hr List.not_mem_nil
  · intro message text hat
    exact absurd hat (by simp [init])
  · intro r hr
    exact absurd hr List.not_mem_nil
  · intro op hop message destination ht
    rw [List.mem_singleton.mp (show op ∈ [⟨.receive, none⟩] from hop)] at ht
    exact absurd ht (by simp)

end

/-! ## Every run -/

/-- Every reply goes to the sender of its datagram, one for each and in order, but for the datagram
that is not answered yet; it has a message of its own, which stays alive and as it was made until
the handler of the reply has run; and the operation carries the destination it was given. -/
structure AnswersEach (s : State) : Prop where
  routed : senders s.toState =
    destinations s.toState ++ List.replicate (unanswered s) s.remoteEndpoint
  unanswered : unanswered s ≤ 1
  own : ((replies s.toState).map Reply.message).Nodup
  alive : ∀ r ∈ replies s.toState, r.message ∉ s.sent →
    s.messages.get r.message = some r.text
  copied : ∀ op ∈ s.ops, ∀ message destination, op.task = .send message destination →
    ∃ r ∈ replies s.toState, r.message = message ∧ r.destination = destination

theorem routed_of_run {ls : List Label} {s : State} (h : Run step Any init ls s) :
    Routed (finish s) :=
  (run_finish h).invariant routed_init fun _ _ _ hI _ hs => step_routed hI hs

/-- **Replies.** In every run, whatever operations do between the statements of the handlers, every
datagram is answered to its own sender; and the io thread by itself answers the last one. -/
theorem answersEach_of_run (ls : List Label) (s : State) (h : Run step Any init ls s) :
    AnswersEach s ∧
      Possible step OnIoThread (fun t => destinations t.toState = senders s.toState) s := by
  have hkept : Kept s := h.invariant kept_init fun s l s' hI _ hs => step_kept hI hs
  obtain ⟨hsenders, hone⟩ := routed_of_finish (routed_of_run h)
  refine ⟨⟨hsenders, hone, hkept.own, ?_, hkept.copied⟩, ?_⟩
  · intro r hr hno
    rcases hkept.alive r hr with hdone | ⟨-, hget⟩
    · exact absurd hdone hno
    · exact hget
  · obtain ⟨ls', t, hrun, hzero, hsame⟩ := possible_answered (routed_of_run h)
    refine ⟨ls', t, hrun, ?_⟩
    have hall := h.append (hrun.mono fun _ _ _ => trivial)
    have hrouted := (routed_of_finish (routed_of_run hall)).1
    rw [hzero, List.replicate_zero, List.append_nil, hsame] at hrouted
    exact hrouted.symm

/-- The second datagram arrives before the handler of the first has returned, and a third sender
overwrites `remote_endpoint_` before that of the second has; the second reply is sent first. -/
def twoClients : List Label :=
  [.complete 0 (.received ⟨1, 2⟩ 1), .run 0 [49], .goOn, .goOn, .overwrite ⟨3, 4⟩,
    .complete 1 (.received ⟨3, 4⟩ 1), .goOn, .run 1 [50], .goOn, .goOn, .overwrite ⟨5, 6⟩, .goOn,
    .complete 1 (.sentTo 1), .run 1 [], .goOn]

theorem answersEach_of_run_twoClients :
    destinations (reached step Any init twoClients).toState = [⟨1, 2⟩, ⟨3, 4⟩] ∧
      AnswersEach (reached step Any init twoClients) :=
  ⟨by decide, (answersEach_of_run twoClients _ (run_reached (by decide))).1⟩

end AsioLearn.Daytime.UdpHandlers
