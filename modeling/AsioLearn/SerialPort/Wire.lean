import AsioLearn.Lib.Line
import AsioLearn.SerialPort.Blocking
import AsioLearn.SerialPort.Stream
import Mathlib.Data.List.TakeWhile

/-!
# What the port is given

Each closure of `send()` starts an `async_write` of its own, without waiting for the one before.
The port should be given the messages whole, in the order their closures were posted, as the
blocking `asio::write` in the closure gives it. It is while a message of which only a part has
been taken is alone: no other write has bytes left when the port takes the part, and no further
closure is run before the rest has been started. The steps of such a run are those of a `Line`.

* `wire_in_order_unless_overlapping`: what the port is given, and the report of each failed write.
-/

namespace AsioLearn.SerialPort

open Proactor Lts

/-! ## The contract of `send()` -/

/-- The port has been given the messages in the order they were posted, up to a point or to the
first failed write: the bytes that blocking writes of the same messages give it. -/
def WireInOrder (s : State) : Prop :=
  wireUntilFailure s <+: (posted s).flatten ∧
    ∀ answers bytes, blockingSends answers (posted s) = some bytes → wireUntilFailure s <+: bytes

/-- Each failed write has been reported, or its handler has still to be run. -/
def FailuresReported (s : State) : Prop :=
  ∀ ec, s.log.count (.writeFailed ec) =
    s.log.count (.onError (.sendError ec)) + pendingFailures ec s

/-- The error callback is set when the handler of a failed write is run. -/
def Attended (s : State) (l : Label) : Prop :=
  match l, s.strand with
  | .runStrand _, .completed (.write _ _) ⟨some _, _⟩ :: _ => s.errorCallback = true
  | _, _ => True

instance (s : State) : ∀ l : Label, Decidable (Attended s l)
  | .runStrand _ =>
    match h : s.strand with
    | .completed (.write _ _) ⟨some _, _⟩ :: _ =>
      decidable_of_iff (s.errorCallback = true) (by simp only [Attended, h])
    | .completed (.write _ _) ⟨none, _⟩ :: _ | .completed .read _ :: _ | .send _ :: _
    | .stop _ :: _ | [] => isTrue (by simp only [Attended, h])
  | .call _ _ | .advance _ _ | .setReceiveCallback _ | .setErrorCallback _ | .complete _ _
  | .dispatch _ | .ioAdvance _ | .ioExit => isTrue trivial

/-- A message of which the port takes only a part is alone, and no closure of `send()` starts a
message while the rest of another has still to be started. -/
def OneAtATime (s : State) (l : Label) : Prop :=
  match l, s.strand with
  | .complete i (.wrote n), _ =>
    match pick s.ops i with
    | some (before, ⟨.write msg sent, none⟩, after) =>
      (Result.ok n).endsWrite msg sent = false → (outstanding (before ++ after)).flatten = []
    | _ => True
  | .runStrand _, .send msg :: _ => msg = [] ∨ suspended s = []
  | _, _ => True

instance (s : State) : ∀ l : Label, Decidable (OneAtATime s l)
  | .complete i (.wrote n) =>
    match h : pick s.ops i with
    | some (before, ⟨.write msg sent, none⟩, after) => decidable_of_iff
        ((Result.ok n).endsWrite msg sent = false → (outstanding (before ++ after)).flatten = [])
        (by simp only [OneAtATime, h])
    | some (_, ⟨.write _ _, some _⟩, _) | some (_, ⟨.read, _⟩, _) | none =>
      isTrue (by simp only [OneAtATime, h])
  | .runStrand _ =>
    match h : s.strand with
    | .send msg :: _ =>
      decidable_of_iff (msg = [] ∨ suspended s = []) (by simp only [OneAtATime, h])
    | .stop _ :: _ | .completed _ _ :: _ | [] => isTrue (by simp only [OneAtATime, h])
  | .complete _ (.failed _) | .complete _ (.received _) | .call _ _ | .advance _ _
  | .setReceiveCallback _ | .setErrorCallback _ | .dispatch _ | .ioAdvance _ | .ioExit =>
    isTrue trivial

/-! ## The line -/

/-- The state carries the line: what is left of it is in the outstanding writes, then in the rest
of a message, then in the messages to be started. -/
structure Carries (line : Line UInt8) (s : State) : Prop where
  accepted : line.accepted = posted s
  wire : line.wire = wire s
  rest : line.rest = (outstanding s.ops).flatten ++ ((suspended s).flatten ++ (sends s).flatten)
  alone : suspended s ≠ [] → (outstanding s.ops).flatten = []
  single : (suspended s).length ≤ 1

/-- Up to the first failed write the state carries a line. -/
structure InLine (s : State) : Prop where
  order : wireUntilFailure s <+: (posted s).flatten
  line : failed s = false → ∃ line, Carries line s

theorem wireUntilFailure_eq {s : State} (h : failed s = false) : wireUntilFailure s = wire s := by
  unfold wireUntilFailure wire
  rw [List.takeWhile_eq_self_iff.mpr]
  intro e he
  unfold failed at h
  rw [List.any_eq_false] at h
  simpa using h e he

/-- After a failed write, or where no bytes are added, nothing is added up to the failure. -/
theorem wireUntilFailure_append {s s' : State} {es : List Event} (hlog : s'.log = s.log ++ es)
    (h : failed s = true ∨ bytesOf es = []) : wireUntilFailure s' = wireUntilFailure s := by
  unfold wireUntilFailure
  rw [hlog, List.takeWhile_append]
  split_ifs with hall
  · have hno : failed s = false := by
      unfold failed
      rw [List.any_eq_false]
      intro e he
      have hself := List.takeWhile_eq_self_iff.mp
        (List.IsPrefix.eq_of_length (List.takeWhile_prefix _) hall) e he
      simpa using hself
    have hnil : bytesOf es = [] := by
      rcases h with h | h
      · exact absurd h (by simp [hno])
      · exact h
    have hall' : s.log.takeWhile (fun e => !e.isWriteFailed) = s.log :=
      List.IsPrefix.eq_of_length (List.takeWhile_prefix _) hall
    have hes : bytesOf (es.takeWhile fun e => !e.isWriteFailed) = [] := by
      have hpre : es.takeWhile (fun e => !e.isWriteFailed) <+: es := List.takeWhile_prefix _
      obtain ⟨rest, hrest⟩ := hpre
      rw [← hrest] at hnil
      unfold bytesOf at hnil ⊢
      rw [List.filterMap_append, List.flatten_append] at hnil
      exact (List.append_eq_nil_iff.mp hnil).1
    unfold bytesOf at hes ⊢
    rw [List.filterMap_append, List.flatten_append, hes, List.append_nil, hall']
  · rfl

theorem posted_append {s s' : State} {es : List Event} (hlog : s'.log = s.log ++ es) :
    posted s' = posted s ++ es.filterMap Event.posted? := by
  unfold posted
  rw [hlog, List.filterMap_append]

theorem wire_append {s s' : State} {es : List Event} (hlog : s'.log = s.log ++ es) :
    wire s' = wire s ++ bytesOf es := by
  unfold wire bytesOf
  rw [hlog, List.filterMap_append, List.flatten_append]

theorem failed_append {s s' : State} {es : List Event} (hlog : s'.log = s.log ++ es)
    (h : failed s' = false) : failed s = false := by
  unfold failed at h ⊢
  rw [hlog, List.any_append, Bool.or_eq_false_iff] at h
  exact h.1

/-- A step that puts no bytes on the wire keeps the order, if what follows is still a line. -/
theorem InLine.append {s s' : State} (es : List Event) (h : InLine s)
    (hlog : s'.log = s.log ++ es) (hbytes : bytesOf es = [])
    (hline : ∀ line, Carries line s → failed s' = false → ∃ line', Carries line' s') :
    InLine s' := by
  constructor
  · rw [wireUntilFailure_append hlog (Or.inr hbytes), posted_append hlog, List.flatten_append]
    exact h.order.trans (List.prefix_append _ _)
  · intro hno
    obtain ⟨line, hc⟩ := h.line (failed_append hlog hno)
    exact hline line hc hno

/-- A list of at most one element has no other order. -/
theorem eq_of_perm_of_length_le_one {α : Type*} {l l' : List α} (h : l.Perm l')
    (hl : l'.length ≤ 1) : l = l' := by
  cases l' with
  | nil => exact h.eq_nil
  | cons x xs =>
    obtain rfl : xs = [] := List.eq_nil_of_length_eq_zero (by simpa using hl)
    exact List.perm_singleton.mp h

section

variable {s s' : State}

theorem posted_of_quiet (h : Quiet s s') : posted s' = posted s := by
  obtain ⟨es, hes, hlog⟩ := h.log
  rw [posted_append hlog, List.filterMap_eq_nil_iff.mpr, List.append_nil]
  intro e he
  have := hes e he
  cases e <;> simp_all [Event.isStream, Event.posted?]

theorem bytesOf_of_not_stream {es : List Event} (h : ∀ e ∈ es, e.isStream = false) :
    bytesOf es = [] := by
  unfold bytesOf
  rw [List.filterMap_eq_nil_iff.mpr]
  · rfl
  · intro e he
    have := h e he
    cases e <;> simp_all [Event.isStream, Event.wrote?]

theorem inLine_quiet (h : InLine s) (hq : Quiet s s') : InLine s' := by
  obtain ⟨es, hes, hlog⟩ := hq.log
  refine h.append _ hlog (bytesOf_of_not_stream hes) fun line hc _ => ⟨line, ?_⟩
  refine ⟨hc.accepted.trans (posted_of_quiet hq).symm, ?_, ?_, ?_, ?_⟩
  · rw [hc.wire, wire_append hlog, bytesOf_of_not_stream hes, List.append_nil]
  · rw [hc.rest, hq.outstanding, hq.suspended, hq.sends]
  · rw [hq.suspended, hq.outstanding]
    exact hc.alone
  · rw [hq.suspended]
    exact hc.single

theorem suspended_of_eq (hops : s'.ops = s.ops)
    (hstrand : s'.strand.filterMap Item.left? = s.strand.filterMap Item.left?) :
    suspended s' = suspended s := by
  unfold suspended
  rw [hops, hstrand]

theorem inLine_post (h : InLine s) {msg : Bytes} (hops : s'.ops = s.ops)
    (hstrand : s'.strand = s.strand ++ [.send msg]) (hlog : s'.log = s.log ++ [.posted msg]) :
    InLine s' := by
  refine h.append _ hlog rfl fun line hc _ => ⟨line.push msg, ?_⟩
  have hsusp : suspended s' = suspended s :=
    suspended_of_eq hops (by rw [hstrand]; simp [Item.left?])
  have hsends : sends s' = sends s ++ [msg] := by
    unfold sends
    rw [hstrand]
    simp [Item.send?]
  refine ⟨?_, ?_, ?_, ?_, by rw [hsusp]; exact hc.single⟩
  · show line.accepted ++ [msg] = posted s'
    rw [posted_append hlog, hc.accepted]
    rfl
  · show line.wire = wire s'
    rw [wire_append hlog, hc.wire]
    exact (List.append_nil _).symm
  · show line.rest ++ msg = _
    rw [hc.rest, hops, hsusp, hsends, List.flatten_append]
    simp
  · rw [hsusp, hops]
    exact hc.alone

/-- The port takes `n` bytes of what is outstanding first. -/
theorem Carries.put {line : Line UInt8} (hc : Carries line s) {x : Bytes} {xs : List Bytes} {n : ℕ}
    (hout : outstanding s.ops = x :: xs) (hn : n ≤ x.length)
    (hlog : s'.log = s.log ++ [.wrote (x.take n)])
    (hrest : x.drop n ++ (xs.flatten ++ ((suspended s).flatten ++ (sends s).flatten)) =
      (outstanding s'.ops).flatten ++ ((suspended s').flatten ++ (sends s').flatten))
    (halone : suspended s' ≠ [] → (outstanding s'.ops).flatten = [])
    (hsingle : (suspended s').length ≤ 1) : Carries (line.put n) s' := by
  have hline : line.rest = x ++ (xs.flatten ++ ((suspended s).flatten ++ (sends s).flatten)) := by
    rw [hc.rest, hout, List.flatten_cons, List.append_assoc]
  refine ⟨?_, ?_, ?_, halone, hsingle⟩
  · show line.accepted = posted s'
    rw [posted_append hlog, hc.accepted]
    exact (List.append_nil _).symm
  · show line.wire ++ line.rest.take n = SerialPort.wire s'
    rw [wire_append hlog, hc.wire, hline, List.take_append_of_le_length hn]
    exact congrArg _ (List.append_nil _).symm
  · show line.rest.drop n = _
    rw [hline, List.drop_append_of_le_length hn, hrest]

/-- A step that puts bytes on the wire keeps the order, if they are those of the line. -/
theorem InLine.wrote (h : InLine s) {bytes : Bytes} (hlog : s'.log = s.log ++ [.wrote bytes])
    (hline : ∀ line, Carries line s → ∃ line', Carries line' s') : InLine s' := by
  constructor
  · by_cases hf : failed s = true
    · rw [wireUntilFailure_append hlog (Or.inl hf), posted_append hlog, List.flatten_append]
      exact h.order.trans (List.prefix_append _ _)
    · obtain ⟨line, hc⟩ := h.line (by simpa using hf)
      obtain ⟨line', hc'⟩ := hline line hc
      have hf' : failed s' = false := by
        unfold failed at hf ⊢
        rw [hlog, List.any_append, Bool.or_eq_false_iff]
        exact ⟨by simpa using hf, rfl⟩
      rw [wireUntilFailure_eq hf', ← hc'.wire, ← hc'.accepted]
      exact line'.wire_isPrefix
  · intro hno
    obtain ⟨line, hc⟩ := h.line (failed_append hlog hno)
    exact hline line hc

/-- The port takes `n` bytes of a write. -/
theorem inLine_take (h : InLine s) {before after : List (Op Task Result)} {msg : Bytes}
    {sent n : ℕ} (hs : s.ops = before ++ ⟨.write msg sent, none⟩ :: after)
    (hwait : before.any (waits (.write msg sent)) = false)
    (hpos : 0 < n) (hn : n ≤ msg.length - sent)
    (hops : s'.ops = before ++ ⟨.write msg sent, some (.ok n)⟩ :: after)
    (hstrand : s'.strand = s.strand)
    (hlog : s'.log = s.log ++ [.wrote ((msg.drop sent).take n)])
    (hpart : (Result.ok n).endsWrite msg sent = false →
      (outstanding (before ++ after)).flatten = []) : InLine s' := by
  have hnil := outstanding_eq_nil_of_waits hwait
  have hout : outstanding s.ops = msg.drop sent :: outstanding after := by
    rw [hs, outstanding_append, hnil]
    rfl
  have hout' : outstanding s'.ops = outstanding after := by
    rw [hops, outstanding_append, hnil]
    rfl
  have hlen : n ≤ (msg.drop sent).length := by
    rw [List.length_drop]
    omega
  have hsends : sends s' = sends s := by
    unfold sends
    rw [hstrand]
  have hsusp : suspended s = leftOver before ++ leftOver after ++
      s.strand.filterMap Item.left? := by
    unfold suspended
    rw [hs, leftOver_append]
    rfl
  have hsusp' : suspended s' = leftOver before ++
      ((left? (.write msg sent) (.ok n)).toList ++ leftOver after) ++
        s.strand.filterMap Item.left? := by
    unfold suspended
    rw [hops, hstrand, leftOver_append, leftOver_cons]
  refine h.wrote hlog fun line hc => ⟨line.put n, ?_⟩
  cases hend : (Result.ok n).endsWrite msg sent with
  | true =>
    -- the message is complete
    have hdone : (msg.drop sent).drop n = [] := by
      rw [List.drop_drop, List.drop_eq_nil_iff]
      have := Result.endsWrite_ok.mp hend
      omega
    have hsame : suspended s' = suspended s := by
      rw [hsusp', hsusp]
      simp [left?, hend]
    refine hc.put hout hlen hlog ?_ ?_ (by rw [hsame]; exact hc.single)
    · rw [hdone, hout', hsame, hsends]
      rfl
    · intro hne
      have hall := hc.alone (by rwa [hsame] at hne)
      rw [hout, List.flatten_cons, List.append_eq_nil_iff] at hall
      rw [hout']
      exact hall.2
  | false =>
    -- a part of it has been taken, and nothing else is outstanding or suspended
    have hafter : (outstanding after).flatten = [] := by
      have := hpart hend
      rwa [outstanding_append, hnil, List.nil_append] at this
    have hmore : ¬ (n = 0 ∨ msg.length ≤ sent + n) := by
      intro hyes
      exact absurd (Result.endsWrite_ok.mpr hyes) (by simp [hend])
    have hnone : suspended s = [] := by
      by_contra hne
      have hall := hc.alone hne
      rw [hout, List.flatten_cons, List.append_eq_nil_iff, List.drop_eq_nil_iff] at hall
      omega
    have hnew : suspended s' = [msg.drop (sent + n)] := by
      have hparts := hnone
      rw [hsusp, List.append_eq_nil_iff, List.append_eq_nil_iff] at hparts
      rw [hsusp', hparts.1.1, hparts.1.2, hparts.2]
      simp only [left?, hend]
      rfl
    refine hc.put hout hlen hlog ?_ (fun _ => by rw [hout']; exact hafter) (by rw [hnew]; simp)
    rw [hout', hafter, hnone, hnew, hsends, List.drop_drop]
    simp

/-- A closure of `send()` starts its message. -/
theorem inLine_start (h : InLine s) {msg : Bytes} {res : Option Result}
    (hs : s.strand = .send msg :: s'.strand)
    (hres : res = none ∨ (msg = [] ∧ res = some (.ok 0)))
    (hops : s'.ops = s.ops ++ [⟨.write msg 0, res⟩]) (hlog : s'.log = s.log)
    (hok : msg = [] ∨ suspended s = []) : InLine s' := by
  have hout : (outstanding s'.ops).flatten = (outstanding s.ops).flatten ++ msg := by
    rw [hops, outstanding_append, List.flatten_append]
    rcases hres with rfl | ⟨rfl, rfl⟩
    · exact congrArg _ (List.append_nil msg)
    · rfl
  have hleft : leftOver s'.ops = leftOver s.ops := by
    rw [hops, leftOver_append]
    rcases hres with rfl | ⟨rfl, rfl⟩ <;> exact List.append_nil _
  have hsends : sends s = msg :: sends s' := by
    unfold sends
    rw [hs]
    rfl
  have hsusp : suspended s' = suspended s := by
    unfold suspended
    rw [hleft, hs]
    rfl
  refine h.append [] (by rw [hlog, List.append_nil]) rfl fun line hc _ => ⟨line, ?_⟩
  refine ⟨?_, ?_, ?_, ?_, by rw [hsusp]; exact hc.single⟩
  · rw [hc.accepted, posted, posted, hlog]
  · rw [hc.wire, wire, wire, hlog]
  · rw [hc.rest, hout, hsusp, hsends, List.flatten_cons]
    rcases hok with rfl | hnil
    · simp
    · simp [hnil]
  · intro hne
    rw [hsusp] at hne
    rcases hok with rfl | hnil
    · rw [hout, hc.alone hne]
      rfl
    · exact absurd hnil hne

/-- The rest of a message is started. -/
theorem inLine_goOn (h : InLine s) {msg : Bytes} {sent : ℕ} {r : Result}
    (hs : s.strand = .completed (.write msg sent) r :: s'.strand)
    (hend : r.endsWrite msg sent = false)
    (hops : s'.ops = s.ops ++ [⟨.write msg (sent + r.length), none⟩]) (hlog : s'.log = s.log) :
    InLine s' := by
  have hout : outstanding s'.ops = outstanding s.ops ++ [msg.drop (sent + r.length)] := by
    rw [hops, outstanding_append]
    rfl
  have hsends : sends s' = sends s := by
    unfold sends
    rw [hs]
    rfl
  have hleft : leftOver s'.ops = leftOver s.ops := by
    rw [hops, leftOver_append]
    exact List.append_nil _
  have hsusp : suspended s = leftOver s.ops ++
      msg.drop (sent + r.length) :: s'.strand.filterMap Item.left? := by
    unfold suspended
    rw [hs, List.filterMap_cons_some (b := msg.drop (sent + r.length))
      (by simp only [Item.left?, left?, hend]; rfl)]
  refine h.append [] (by rw [hlog, List.append_nil]) rfl fun line hc _ => ⟨line, ?_⟩
  -- it was the only one suspended
  have hothers : leftOver s.ops = [] ∧ s'.strand.filterMap Item.left? = [] := by
    have hone := hc.single
    rw [hsusp, List.length_append, List.length_cons] at hone
    exact ⟨List.eq_nil_of_length_eq_zero (by omega), List.eq_nil_of_length_eq_zero (by omega)⟩
  have hnone : suspended s' = [] := by
    unfold suspended
    rw [hleft, hothers.1, hothers.2]
    rfl
  have halone := hc.alone (by rw [hsusp]; simp)
  refine ⟨?_, ?_, ?_, fun hne => absurd hnone hne, by rw [hnone]; simp⟩
  · rw [hc.accepted, posted, posted, hlog]
  · rw [hc.wire, wire, wire, hlog]
  · rw [hc.rest, hout, hnone, hsends, hsusp, hothers.1, hothers.2, List.flatten_append]
    simp

/-- A completed step is handed to the strand. -/
theorem inLine_dispatch (h : InLine s) {before after : List (Op Task Result)} {t : Task}
    {res : Result} (hs : s.ops = before ++ ⟨t, some res⟩ :: after) (hops : s'.ops = before ++ after)
    (hstrand : s'.strand = s.strand ++ [.completed t res]) (hlog : s'.log = s.log) : InLine s' := by
  have hout : outstanding s'.ops = outstanding s.ops := by
    rw [hs, hops, outstanding_append, outstanding_append]
    unfold outstanding
    rw [List.filterMap_cons_none (by cases t <;> rfl)]
  have hsends : sends s' = sends s := by
    unfold sends
    rw [hstrand, List.filterMap_append]
    exact List.append_nil _
  have hsusp : suspended s = leftOver before ++ ((left? t res).toList ++ leftOver after) ++
      s.strand.filterMap Item.left? := by
    unfold suspended
    rw [hs, leftOver_append, leftOver_cons]
  have hsusp' : suspended s' = leftOver before ++ leftOver after ++
      (s.strand.filterMap Item.left? ++ (left? t res).toList) := by
    unfold suspended
    rw [hops, hstrand, leftOver_append, List.filterMap_append]
    congr 2
  refine h.append [] (by rw [hlog, List.append_nil]) rfl fun line hc _ => ⟨line, ?_⟩
  have hsame : suspended s' = suspended s := by
    refine eq_of_perm_of_length_le_one ?_ hc.single
    rw [hsusp, hsusp', List.append_assoc, List.append_assoc, List.append_assoc]
    refine List.Perm.append_left _ ?_
    rw [← List.append_assoc]
    exact List.perm_append_comm
  refine ⟨?_, ?_, ?_, ?_, ?_⟩
  · rw [hc.accepted, posted, posted, hlog]
  · rw [hc.wire, wire, wire, hlog]
  · rw [hc.rest, hout, hsends, hsame]
  · rw [hsame, hout]
    exact hc.alone
  · rw [hsame]
    exact hc.single

/-- The handler of a failed write reports it. -/
theorem inLine_report (h : InLine s) {msg : Bytes} {sent : ℕ} {r : Result} {ec : ErrorCode}
    (hs : s.strand = .completed (.write msg sent) r :: s'.strand) (hec : r.ec = some ec)
    (hops : s'.ops = s.ops)
    (hlog : s'.log = s.log ++ if s.errorCallback then [.onError (.sendError ec)] else []) :
    InLine s' := by
  have hsusp : suspended s' = suspended s := by
    refine suspended_of_eq hops ?_
    rw [hs, List.filterMap_cons_none]
    simp [Item.left?, left?, Result.endsWrite, hec]
  have hsends : sends s' = sends s := by
    unfold sends
    rw [hs]
    rfl
  have hbytes : bytesOf (if s.errorCallback then [.onError (.sendError ec)] else []) = [] := by
    split_ifs <;> rfl
  refine h.append _ hlog hbytes fun line hc _ => ⟨line, ?_⟩
  refine ⟨?_, ?_, ?_, ?_, ?_⟩
  · rw [hc.accepted, posted_append hlog]
    split_ifs <;> exact (List.append_nil _).symm
  · rw [hc.wire, wire_append hlog, hbytes, List.append_nil]
  · rw [hc.rest, hops, hsusp, hsends]
  · rw [hsusp, hops]
    exact hc.alone
  · rw [hsusp]
    exact hc.single

theorem step_inLine (h : InLine s) (hu : Unstopped s) {l : Label} (hok : OneAtATime s l)
    (hs : step s l = some s') : InLine s' := by
  cases streams_of_step hu hs with
  | quiet hq => exact inLine_quiet h hq
  | post msg hops hstrand hlog => exact inLine_post h hops hstrand hlog
  | take i before after msg sent n hp hwait hpos hn hops hstrand hlog =>
    refine inLine_take h (pick_eq_some hp) hwait hpos hn hops hstrand hlog ?_
    simpa only [OneAtATime, hp] using hok
  | fail i before after msg sent ec hp hec hops hstrand hlog =>
    refine h.append _ hlog rfl fun line hc hno => absurd hno ?_
    unfold failed
    rw [hlog]
    simp [Event.isWriteFailed]
  | dispatch i before after t res hp hops hstrand hlog =>
    exact inLine_dispatch h hp hops hstrand hlog
  | start env msg res hstrand hres hops hlog =>
    refine inLine_start h hstrand hres hops hlog ?_
    simpa only [OneAtATime, hstrand] using hok
  | goOn env msg sent r hstrand hend hops hlog => exact inLine_goOn h hstrand hend hops hlog
  | report env msg sent r ec hstrand hec hab hops hlog =>
    exact inLine_report h hstrand hec hops hlog

/-! ## Reports -/

theorem failuresReported_quiet (h : FailuresReported s) (hq : Quiet s s') :
    FailuresReported s' := by
  intro ec
  obtain ⟨es, hes, hlog⟩ := hq.log
  have hfailed : es.count (.writeFailed ec) = 0 :=
    List.count_eq_zero.mpr fun hmem => absurd (hes _ hmem) (by simp [Event.isStream])
  have hreported : es.count (.onError (.sendError ec)) = 0 :=
    List.count_eq_zero.mpr fun hmem => absurd (hes _ hmem) (by simp [Event.isStream])
  rw [hlog, List.count_append, List.count_append, hfailed, hreported, hq.failures]
  exact h ec

theorem step_failuresReported (h : FailuresReported s) (hu : Unstopped s) {l : Label}
    (hok : Attended s l) (hs : step s l = some s') : FailuresReported s' := by
  intro ec
  have hcount := h ec
  cases streams_of_step hu hs with
  | quiet hq => exact failuresReported_quiet h hq ec
  | post msg hops hstrand hlog =>
    unfold pendingFailures at *
    rw [hops, hstrand, hlog, List.count_append, List.count_append, List.countP_append]
    exact hcount
  | take i before after msg sent n hp hwait hpos hn hops hstrand hlog =>
    unfold pendingFailures at *
    rw [pick_eq_some hp] at hcount
    rw [hops, hstrand, hlog, List.count_append, List.count_append]
    simpa [failsWith, Result.ok] using hcount
  | fail i before after msg sent ec' hp hec hops hstrand hlog =>
    unfold pendingFailures at *
    rw [pick_eq_some hp] at hcount
    rw [hops, hstrand, hlog, List.count_append, List.count_append]
    by_cases he : ec' = ec
    · subst he
      simp [failsWith, Result.error, Task.isWrite, hec] at hcount ⊢
      omega
    · simp [failsWith, Result.error, Task.isWrite, he] at hcount ⊢
      omega
  | dispatch i before after t res hp hops hstrand hlog =>
    unfold pendingFailures at *
    rw [hp] at hcount
    rw [hops, hstrand, hlog]
    have hlast : Item.failsWith ec (.completed t res) = failsWith ec t res := rfl
    cases hf : failsWith ec t res with
    | true =>
      simp [hf, hlast] at hcount ⊢
      omega
    | false => simpa [hf, hlast] using hcount
  | start env msg res hstrand hres hops hlog =>
    have hnew : res.any (failsWith ec (.write msg 0)) = false := by
      rcases hres with rfl | ⟨rfl, rfl⟩ <;> rfl
    unfold pendingFailures at *
    rw [hstrand] at hcount
    rw [hops, hlog]
    simpa [List.countP_cons, Item.failsWith, hnew] using hcount
  | goOn env msg sent r hstrand hend hops hlog =>
    unfold pendingFailures at *
    have hec : r.ec = none := by
      unfold Result.endsWrite at hend
      rw [Bool.or_eq_false_iff] at hend
      simpa using hend.1
    rw [hstrand] at hcount
    rw [hops, hlog]
    simpa [List.countP_cons, Item.failsWith, failsWith, hec] using hcount
  | report env msg sent r ec' hstrand hec hab hops hlog =>
    have hcb : s.errorCallback = true := by
      obtain ⟨rec, len⟩ := r
      obtain rfl : rec = some ec' := hec
      simpa only [Attended, hstrand] using hok
    unfold pendingFailures at *
    rw [hstrand] at hcount
    rw [hops, hlog, if_pos hcb, List.count_append, List.count_append]
    by_cases he : ec' = ec
    · subst he
      simp [Item.failsWith, failsWith, hec, Task.isWrite, hab] at hcount ⊢
      omega
    · simp [Item.failsWith, failsWith, hec, Task.isWrite, he] at hcount ⊢
      omega

end

/-! ## Runs -/

theorem inLine_init : InLine init :=
  ⟨List.nil_prefix, fun _ => ⟨.empty, rfl, rfl, rfl, fun h => absurd rfl h, Nat.zero_le _⟩⟩

theorem failuresReported_init : FailuresReported init := fun _ => rfl

theorem wireInOrder_of_inLine {s : State} (h : InLine s) : WireInOrder s := by
  refine ⟨h.order, ?_⟩
  intro answers bytes hb
  rw [blockingSends_eq hb]
  exact h.order

/-- **Messages whole and in order.** In a run without `stop()` in which a message of which the
port takes a part is alone, the port is given the messages in the order their closures were
posted, as blocking writes give them, up to the first failed write; and each failed write is
reported once its handler has run, if the error callback is set. -/
theorem wire_in_order_unless_overlapping (ls : List Label) (s : State)
    (h : Run step (fun s l => NoStop s l ∧ OneAtATime s l) init ls s) :
    WireInOrder s ∧ (EachStep step Attended init ls → FailuresReported s) := by
  constructor
  · have hin : Unstopped s ∧ InLine s := by
      apply h.invariant (I := fun s => Unstopped s ∧ InLine s) ⟨unstopped_init, inLine_init⟩
      intro s l s' hI hok hs
      exact ⟨step_unstopped hI.1 hok.1 hs, step_inLine hI.2 hI.1 hok.2 hs⟩
    exact wireInOrder_of_inLine hin.2
  · intro hatt
    have hrep : Unstopped s ∧ FailuresReported s := by
      refine (h.and_eachStep hatt).invariant (I := fun s => Unstopped s ∧ FailuresReported s)
        ⟨unstopped_init, failuresReported_init⟩ ?_
      intro s l s' hI hok hs
      exact ⟨step_unstopped hI.1 hok.1.1 hs, step_failuresReported hI.2 hI.1 hok.2 hs⟩
    exact hrep.2

/-- The session is started by thread `0`. -/
def started : List Label :=
  [.call 0 .start, .advance 0 {}, .advance 0 {}, .advance 0 {}]

/-- A message taken in two parts, then another one. -/
def splitThenWhole : List Label :=
  started ++ [.call 0 (.send [97, 98]), .advance 0 {}, .runStrand {}, .complete 1 (.wrote 1),
    .dispatch 1, .runStrand {}, .complete 1 (.wrote 1), .call 0 (.send [99]), .advance 0 {},
    .runStrand {}, .complete 2 (.wrote 1)]

theorem wire_in_order_unless_overlapping_splitThenWhole :
    wire (reached step (fun s l => NoStop s l ∧ OneAtATime s l) init splitThenWhole) =
        [97, 98, 99] ∧
      WireInOrder (reached step (fun s l => NoStop s l ∧ OneAtATime s l) init splitThenWhole) :=
  ⟨by decide, (wire_in_order_unless_overlapping splitThenWhole _ (run_reached (by decide))).1⟩

/-- Two messages are posted and both writes started. The port takes one byte of the first, and
then the second message, before the rest of the first has been started. -/
def splitAround : List Label :=
  started ++ [.call 0 (.send [97, 98]), .advance 0 {}, .call 0 (.send [99]), .advance 0 {},
    .runStrand {}, .runStrand {}, .complete 1 (.wrote 1), .complete 2 (.wrote 1), .dispatch 1,
    .runStrand {}, .complete 2 (.wrote 1)]

theorem not_wire_in_order :
    ¬ ∀ (ls : List Label) (s : State), Run step NoStop init ls s → WireInOrder s := by
  intro h
  have hs := (h splitAround _ (run_reached (by decide))).1
  have hw : wireUntilFailure (reached step NoStop init splitAround) = [97, 99, 98] := by decide
  have hp : posted (reached step NoStop init splitAround) = [[97, 98], [99]] := by decide
  rw [hw, hp] at hs
  exact absurd hs (by decide)

end AsioLearn.SerialPort
