import PaxosCpp.TcpConnectionFifo
import PaxosCpp.ProtocolReader
import PaxosCpp.ProtocolCommand

/-! A connection used only through `write_command`, seen from the peer, in runs where no
`write_some` read freed storage: the peer has the first commands written, in order and none
cut, whether read as one stream, by the event-driven reader, or by `new_connection`. -/
namespace PaxosCpp.Protocol
open TcpConnection

section
variable (cv : Conversion) {Cmd : Type} (toString : Cmd → Bytes) (fromString : Bytes → Cmd)

theorem prefix_append_cases {s l₁ l₂ : Bytes} (h : s <+: l₁ ++ l₂) :
    (s <+: l₁ ∧ s.length < l₁.length) ∨ ∃ s', s = l₁ ++ s' ∧ s' <+: l₂ := by
  rw [List.prefix_iff_eq_take] at h
  by_cases hl : s.length < l₁.length
  · left
    rw [h, List.take_append_of_le_length hl.le]
    exact ⟨List.take_prefix _ _, by simpa [List.length_take] using hl⟩
  · right
    rw [List.take_append_eq_append_take, List.take_of_length_le (by omega)] at h
    exact ⟨_, h, List.take_prefix _ _⟩

/-- The bytes of a frame cut before its end are not a command yet. -/
theorem readCommand_cut_frame {command : Cmd} {s : Bytes} (hc : (toString command).length < 2 ^ 32)
    (hs : s <+: frame cv toString command) (hl : s.length < (frame cv toString command).length) :
    readCommand cv fromString s = none := by
  have h4 := cv.length_toByteArray (UInt32.ofNat (toString command).length)
  simp only [frame, List.length_append, h4] at hl hs
  by_cases hs4 : s.length < 4
  · simp [readCommand, asyncRead, Nat.not_le.mpr hs4]
  · have ht : s.take 4 = cv.toByteArray (UInt32.ofNat (toString command).length) := by
      rw [List.prefix_iff_eq_take.mp hs, List.take_take, min_eq_left (by omega),
        List.take_left' h4]
    simp [readCommand, asyncRead, Nat.le_of_not_lt hs4, readCommandParseSize, ht,
      cv.fromByteArray_toByteArray, toNat_size, Nat.mod_eq_of_lt hc]
    omega

/-- A reader on any prefix of a stream of frames has handed over the first commands. -/
theorem readCommands_prefix_frames {commands : List Cmd} (h : ∀ c ∈ commands, (toString c).length < 2 ^ 32)
    {s : Bytes} (hs : s <+: frames cv toString commands) :
    ∃ i, readCommands cv fromString s = (commands.take i).map (fromString ∘ toString) := by
  induction commands generalizing s with
  | nil =>
    obtain rfl : s = [] := List.prefix_nil.mp hs
    exact ⟨0, readCommands_nil cv fromString⟩
  | cons c cs ih =>
    have hc := h c (List.mem_cons_self c cs)
    simp only [frames, List.map_cons, List.flatten_cons] at hs
    rcases prefix_append_cases hs with ⟨hp, hl⟩ | ⟨s', rfl, hs'⟩
    · exact ⟨0, readCommands_of_none cv fromString (readCommand_cut_frame cv toString fromString hc hp hl)⟩
    · obtain ⟨i, hi⟩ := ih (fun c' hc' => h c' (List.mem_cons_of_mem c hc')) hs'
      refine ⟨i + 1, ?_⟩
      rw [readCommands_of_some cv fromString (readCommand_frame cv toString fromString c s'),
        Nat.mod_eq_of_lt hc, List.take_length, List.drop_length, List.nil_append, hi]
      rfl

/-- On a connection written only by `write_command`, in a run where no `write_some` read freed
storage: the peer has the first commands written, in order and none cut; all of them once
`write_buffer_` is empty. -/
theorem peer_reads_in_order {commands : List Cmd} (h : ∀ c ∈ commands, (toString c).length < 2 ^ 32)
    {conn : Conn} (hr : Reachable (commands.map (frame cv toString)) true conn) :
    (∃ i, readCommands cv fromString conn.sent = (commands.take i).map (fromString ∘ toString)) ∧
      (conn.writeBuffer = [] →
        readCommands cv fromString conn.sent = commands.map (fromString ∘ toString)) := by
  have hf : conn.sent ++ conn.unsent = frames cv toString commands := (reachable_inv hr).2.fifo rfl
  refine ⟨readCommands_prefix_frames cv toString fromString h (hf ▸ List.prefix_append _ _), fun hw => ?_⟩
  rw [show conn.unsent = [] by simp [Conn.unsent, hw], List.append_nil] at hf
  rw [hf]
  exact readCommands_of_frames cv toString fromString h

/-- End to end, in a run where no `write_some` read freed storage: however the bytes the socket
took arrive and asio splits the reads, the peer's reader has handed over the first commands
written; once all were sent and arrived, reading on hands over every one. -/
theorem commands_delivered_in_order {commands : List Cmd} (h : ∀ c ∈ commands, (toString c).length < 2 ^ 32)
    {conn : Conn} (hw : Reachable (commands.map (frame cv toString)) true conn)
    {arrived : Bytes} {r : Reader Cmd} (hr : Reader.Reachable cv fromString arrived r) (ha : arrived <+: conn.sent) :
    (∃ i, r.handed = (commands.take i).map (fromString ∘ toString)) ∧
      (conn.writeBuffer = [] → arrived = conn.sent → r.pendingRead.isSome →
        ∃ r', Reader.Steps cv fromString r (List.replicate r.socket.length (.readSome 1)) r' ∧
          r'.handed = commands.map (fromString ∘ toString)) := by
  have hf : conn.sent ++ conn.unsent = frames cv toString commands := (reachable_inv hw).2.fifo rfl
  have hag := Reader.reachable_agrees cv fromString hr
  refine ⟨?_, fun hwb hs hp => ?_⟩
  · obtain ⟨i, hi⟩ := readCommands_prefix_frames cv toString fromString h
      (ha.trans (hf ▸ List.prefix_append _ _))
    have hpre := hag.handedFirst
    rw [hi, List.prefix_iff_eq_take] at hpre
    refine ⟨min r.handed.length i, hpre.trans ?_⟩
    simp only [List.map_take, List.take_take]
  · obtain ⟨r', hs', hsock, hp', hag'⟩ := Reader.agrees_drain cv fromString r hag hp
    have hsent : conn.sent = frames cv toString commands := by
      simpa [show conn.unsent = [] by simp [Conn.unsent, hwb]] using hf
    refine ⟨r', hs', ?_⟩
    rw [hag'.handed_eq cv fromString hsock hp', hs, hsent]
    exact readCommands_of_frames cv toString fromString h

end

/-- The connection after `write_command` of `[7, 8]` and one `write_some` of all of its frame. -/
theorem reachable_sent_frame :
    Reachable ([[7, 8]].map (frame littleEndian id)) true ⟨[], [], frame littleEndian id [7, 8]⟩ :=
  .step (.step (.step .create
    (show Admissible create (.write (frame littleEndian id [7, 8]) false) by simp [Admissible, frame]) rfl)
    (show Admissible _ (.writeSome 0 6 [0, 0, 0, 0, 0, 0]) from ⟨_, rfl, by decide, by decide, rfl⟩) rfl)
    (show Admissible _ (.complete 0 0) from ⟨_, rfl, by decide⟩) rfl

theorem peer_reads_in_order_sent :
    (∀ c ∈ [[7, 8]], (id c : Bytes).length < 2 ^ 32) ∧
      Reachable ([[7, 8]].map (frame littleEndian id)) true ⟨[], [], frame littleEndian id [7, 8]⟩ ∧
      ((∃ i, readCommands littleEndian id (frame littleEndian id [7, 8]) = ([[7, 8]].take i).map (id ∘ id)) ∧
        (([] : Bytes) = [] →
          readCommands littleEndian id (frame littleEndian id [7, 8]) = [[7, 8]].map (id ∘ id))) := by
  have h : ∀ c ∈ [[7, 8]], (id c : Bytes).length < 2 ^ 32 := by simp
  exact ⟨h, reachable_sent_frame, peer_reads_in_order littleEndian id id h reachable_sent_frame⟩

theorem commands_delivered_in_order_sent :
    (∀ c ∈ [[7, 8]], (id c : Bytes).length < 2 ^ 32) ∧
      Reachable ([[7, 8]].map (frame littleEndian id)) true ⟨[], [], frame littleEndian id [7, 8]⟩ ∧
      Reader.Reachable littleEndian id (frame littleEndian id [7, 8])
        (⟨frame littleEndian id [7, 8], some (.size []), []⟩ : Reader Bytes) ∧
      frame littleEndian id [7, 8] <+: frame littleEndian id [7, 8] ∧
      ((∃ i, ([] : List Bytes) = ([[7, 8]].take i).map (id ∘ id)) ∧
        (([] : Bytes) = [] → frame littleEndian id [7, 8] = frame littleEndian id [7, 8] →
          (some (PendingRead.size [])).isSome →
          ∃ r', Reader.Steps littleEndian id ⟨frame littleEndian id [7, 8], some (.size []), []⟩
            (List.replicate (frame littleEndian id [7, 8]).length (.readSome 1)) r' ∧
              r'.handed = [[7, 8]].map (id ∘ id))) := by
  have h : ∀ c ∈ [[7, 8]], (id c : Bytes).length < 2 ^ 32 := by simp
  have hr : Reader.Reachable littleEndian id (frame littleEndian id [7, 8])
      (⟨frame littleEndian id [7, 8], some (.size []), []⟩ : Reader Bytes) :=
    .step .start (show Reader.Admissible (Reader.start : Reader Bytes)
      (.arrive (frame littleEndian id [7, 8])) from trivial) rfl
  exact ⟨h, reachable_sent_frame, hr, List.prefix_refl _,
    commands_delivered_in_order littleEndian id id h reachable_sent_frame hr (List.prefix_refl _)⟩

section
variable (cv : Conversion) (toString : Command → Bytes) (fromString : Bytes → Command)

/-- `handle_command` has no case for `request_initiate`: on a connection only `initiate_request`
wrote to, in a run where no `write_some` read freed storage, the peer's `new_connection`
passes no command to a handler, and throws on the first request once it has arrived. -/
theorem initiated_requests_rejected {byteArrays : List Bytes}
    (h : ∀ w ∈ byteArrays, (toString (initiateCommand w)).length < 2 ^ 32)
    (htype : ∀ w ∈ byteArrays, (fromString (toString (initiateCommand w))).type = .requestInitiate)
    {conn : Conn} (hr : Reachable (byteArrays.map fun w => frame cv toString (initiateCommand w)) true conn) :
    (newConnection cv fromString Command.type conn.sent = ([], none) ∨
        newConnection cv fromString Command.type conn.sent =
          ([], byteArrays.head?.map fun w => fromString (toString (initiateCommand w)))) ∧
      (conn.writeBuffer = [] → newConnection cv fromString Command.type conn.sent =
        ([], byteArrays.head?.map fun w => fromString (toString (initiateCommand w)))) := by
  have hc : ∀ c ∈ byteArrays.map initiateCommand, (toString c).length < 2 ^ 32 := by simpa using h
  have hlog : (byteArrays.map fun w => frame cv toString (initiateCommand w)).flatten =
      frames cv toString (byteArrays.map initiateCommand) := by
    simp [frames, Function.comp_def]
  have hf : conn.sent ++ conn.unsent = frames cv toString (byteArrays.map initiateCommand) :=
    ((reachable_inv hr).2.fifo rfl).trans hlog
  -- a reader that has read the requests of `l` hands none over, and throws on the first
  have hrejected : ∀ l, l <+: byteArrays → ∀ stream,
      readCommands cv fromString stream = (l.map initiateCommand).map (fromString ∘ toString) →
        newConnection cv fromString Command.type stream =
          ([], l.head?.map fun w => fromString (toString (initiateCommand w))) := by
    intro l hl stream hs
    rw [newConnection_eq, hs]
    cases l with
    | nil => rfl
    | cons w l =>
      have hw := htype w (hl.subset (List.mem_cons_self w l))
      simp [hw, CommandType.handled]
  refine ⟨?_, fun hw => ?_⟩
  · obtain ⟨i, hi⟩ := readCommands_prefix_frames cv toString fromString hc (hf ▸ List.prefix_append _ _)
    rw [← List.map_take] at hi
    rw [hrejected _ (List.take_prefix i byteArrays) _ hi, List.head?_take]
    split_ifs <;> simp
  · rw [show conn.unsent = [] by simp [Conn.unsent, hw], List.append_nil] at hf
    exact hrejected _ (List.prefix_refl _) _ (hf ▸ readCommands_of_frames cv toString fromString hc)

end

theorem initiated_requests_rejected_sent :
    (∀ w ∈ [[5]], (Command.workload (initiateCommand w)).length < 2 ^ 32) ∧
      (∀ w ∈ [[5]], (initiateCommand (Command.workload (initiateCommand w))).type = .requestInitiate) ∧
      Reachable ([[5]].map fun w => frame littleEndian Command.workload (initiateCommand w)) true
        ⟨[], [], frame littleEndian Command.workload (initiateCommand [5])⟩ ∧
      ((newConnection littleEndian initiateCommand Command.type
            (frame littleEndian Command.workload (initiateCommand [5])) = ([], none) ∨
          newConnection littleEndian initiateCommand Command.type
              (frame littleEndian Command.workload (initiateCommand [5])) =
            ([], [[5]].head?.map fun w => initiateCommand (Command.workload (initiateCommand w)))) ∧
        (([] : Bytes) = [] → newConnection littleEndian initiateCommand Command.type
            (frame littleEndian Command.workload (initiateCommand [5])) =
          ([], [[5]].head?.map fun w => initiateCommand (Command.workload (initiateCommand w))))) := by
  have h : ∀ w ∈ [[5]], (Command.workload (initiateCommand w)).length < 2 ^ 32 := by
    simp [initiateCommand]
  have htype : ∀ w ∈ [[5]], (initiateCommand (Command.workload (initiateCommand w))).type =
      .requestInitiate := fun _ _ => rfl
  have hr : Reachable ([[5]].map fun w => frame littleEndian Command.workload (initiateCommand w)) true
      ⟨[], [], frame littleEndian Command.workload (initiateCommand [5])⟩ :=
    .step (.step (.step .create
      (show Admissible create (.write (frame littleEndian Command.workload (initiateCommand [5])) false) by
        simp [Admissible, frame, initiateCommand]) rfl)
      (show Admissible _ (.writeSome 0 5 [0, 0, 0, 0, 0]) from ⟨_, rfl, by decide, by decide, rfl⟩) rfl)
      (show Admissible _ (.complete 0 0) from ⟨_, rfl, by decide⟩) rfl
  exact ⟨h, htype, hr, initiated_requests_rejected littleEndian Command.workload initiateCommand h htype hr⟩

end PaxosCpp.Protocol
