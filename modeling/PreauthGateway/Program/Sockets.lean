import PreauthGateway.Program.Framing

/-!
# Frames read from a socket

A socket delivers a byte stream in chunks. Each `recv` returns at least one byte and at most as many
as it was asked for, and none once the stream has ended. How many it returns is part of the socket,
so that a statement about every socket is one about every way to cut the stream.

## Main definitions

* `Framing.Socket`, `Framing.Socket.recv`: a stream and its cuts
* `Framing.recvFrom`, `Framing.readFrame`, `Framing.readFrames`: so many bytes, a frame, some frames

## Main results

* `Framing.readFrames_frames`: **what was framed is read back, however the stream is cut**
* `Framing.readFrames_cut`: **a stream that ends inside a frame is reported**
* `Framing.readFrame_eq_follow`: a `Reader` that is fed chunk by chunk reads the same
-/

namespace Framing

/-- What the stream still delivers before it ends, and how many bytes the calls of `recv` to come
would return. -/
structure Socket where
  rest : List UInt8
  sizes : ℕ → ℕ

/-- `recv(n)`. -/
def Socket.recv (n : ℕ) (s : Socket) : List UInt8 × Socket :=
  let k := min n (max 1 (s.sizes 0))
  (s.rest.take k, { rest := s.rest.drop k, sizes := fun i => s.sizes (i + 1) })

section Recv

variable {n : ℕ} {s : Socket}

/-- A chunk is the front of the stream, and no longer than asked for. -/
theorem recv_cases (hn : 0 < n) (s : Socket) :
    (s.rest = [] ∧ (s.recv n).1 = [] ∧ (s.recv n).2.rest = []) ∨
      ((s.recv n).1 ≠ [] ∧ (s.recv n).1.length ≤ n ∧ s.rest = (s.recv n).1 ++ (s.recv n).2.rest) := by
  rcases eq_or_ne s.rest [] with h | h
  · exact Or.inl ⟨h, by simp [Socket.recv, h], by simp [Socket.recv, h]⟩
  · refine Or.inr ⟨?_, ?_, (List.take_append_drop _ s.rest).symm⟩
    · have hk : min n (max 1 (s.sizes 0)) ≠ 0 := by omega
      simp [Socket.recv, List.take_eq_nil_iff, h]
      omega
    · rw [Socket.recv, List.length_take]
      omega

/-- A chunk is taken from the stream. -/
theorem recv_shorter (h : (s.recv n).1 ≠ []) : (s.recv n).2.rest.length < s.rest.length := by
  have hcut : s.rest = (s.recv n).1 ++ (s.recv n).2.rest := (List.take_append_drop _ s.rest).symm
  have hpos := List.length_pos_iff.mpr h
  have hlen := congrArg List.length hcut
  rw [List.length_append] at hlen
  omega

end Recv

variable {ε : Type*}

/-- The loop of `_recv_exact`, with `buf` read so far; `ended` is reported when the stream ends. -/
def recvFrom (ended : ε) (n : ℕ) (buf : List UInt8) (s : Socket) : Except ε (List UInt8) × Socket :=
  if buf.length < n then
    if (s.recv (n - buf.length)).1 = [] then (.error ended, (s.recv (n - buf.length)).2)
    else recvFrom ended n (buf ++ (s.recv (n - buf.length)).1) (s.recv (n - buf.length)).2
  else (.ok buf, s)
termination_by n - buf.length
decreasing_by
  rename_i hlt hne
  have hpos := List.length_pos_iff.mpr hne
  rw [List.length_append]
  omega

/-- `_recv_exact(sock, n)`. -/
def recvExact (ended : ε) (n : ℕ) (s : Socket) : Except ε (List UInt8) × Socket :=
  recvFrom ended n [] s

/-- A frame: four bytes of header, and as many as the header says. -/
def readFrame (ended : ε) (s : Socket) : Except ε (List UInt8) × Socket :=
  match recvExact ended 4 s with
  | (.error e, s) => (.error e, s)
  | (.ok header, s) => recvExact ended (unpack header) s

/-- At most so many frames, up to the first report. -/
def readFrames (ended : ε) : ℕ → Socket → (List (List UInt8) × Option ε) × Socket
  | 0, s => (([], none), s)
  | k + 1, s =>
    match readFrame ended s with
    | (.error e, s) => (([], some e), s)
    | (.ok payload, s) =>
      let (out, s) := readFrames ended k s
      ((payload :: out.1, out.2), s)

variable (ended : ε)

/-- **Bytes that the stream still has are read**, and what follows them is left. -/
theorem recvFrom_of_rest {n : ℕ} {buf : List UInt8} {s : Socket} (want t : List UInt8)
    (hn : n = buf.length + want.length) (hrest : s.rest = want ++ t) :
    ∃ sizes, recvFrom ended n buf s = (.ok (buf ++ want), ⟨t, sizes⟩) := by
  fun_induction recvFrom ended n buf s generalizing want with
  | case1 buf s hlt hnil =>
    rcases recv_cases (Nat.sub_pos_of_lt hlt) s with ⟨hend, -, -⟩ | ⟨hne, -, -⟩
    · rw [hend] at hrest
      have hwant := (List.append_eq_nil_iff.mp hrest.symm).1
      rw [hwant, List.length_nil] at hn
      omega
    · exact absurd hnil hne
  | case2 buf s hlt hne ih =>
    rcases recv_cases (Nat.sub_pos_of_lt hlt) s with ⟨-, hnil, -⟩ | ⟨-, hle, hcut⟩
    · exact absurd hnil hne
    generalize (s.recv (n - buf.length)).1 = chunk at *
    have hfront : chunk <+: want := by
      have hchunk : chunk <+: want ++ t := by
        rw [← hrest, hcut]
        exact List.prefix_append _ _
      exact List.prefix_of_prefix_length_le hchunk (List.prefix_append want t) (by omega)
    obtain ⟨want, rfl⟩ := hfront
    rw [List.length_append] at hn
    rw [hcut, List.append_assoc] at hrest
    obtain ⟨sizes, hread⟩ := ih want (by rw [List.length_append]; omega)
      (List.append_cancel_left hrest)
    exact ⟨sizes, by rw [hread, List.append_assoc]⟩
  | case3 buf s hge =>
    have hwant : want = [] := List.length_eq_zero_iff.mp (by omega)
    subst hwant
    exact ⟨s.sizes, by rw [List.append_nil, ← List.nil_append t, ← hrest]⟩

/-- **A stream that ends too early is reported**, after its last byte. -/
theorem recvFrom_of_ends {n : ℕ} {buf : List UInt8} {s : Socket}
    (h : buf.length + s.rest.length < n) :
    ∃ sizes, recvFrom ended n buf s = (.error ended, ⟨[], sizes⟩) := by
  fun_induction recvFrom ended n buf s with
  | case1 buf s hlt hnil =>
    rcases recv_cases (Nat.sub_pos_of_lt hlt) s with ⟨-, -, hrest⟩ | ⟨hne, -, -⟩
    · exact ⟨(s.recv (n - buf.length)).2.sizes, by rw [← hrest]⟩
    · exact absurd hnil hne
  | case2 buf s hlt hne ih =>
    rcases recv_cases (Nat.sub_pos_of_lt hlt) s with ⟨-, hnil, -⟩ | ⟨-, -, hcut⟩
    · exact absurd hnil hne
    · apply ih
      rw [hcut, List.length_append] at h
      rw [List.length_append]
      omega
  | case3 buf s hge => omega

theorem recvExact_of_rest (want t : List UInt8) (sizes : ℕ → ℕ) :
    ∃ sizes', recvExact ended want.length ⟨want ++ t, sizes⟩ = (.ok want, ⟨t, sizes'⟩) := by
  have hn : want.length = ([] : List UInt8).length + want.length := (Nat.zero_add _).symm
  exact recvFrom_of_rest ended want t hn rfl

theorem recvExact_zero (s : Socket) : recvExact ended 0 s = (.ok [], s) := by
  rw [recvExact, recvFrom]
  exact if_neg (Nat.lt_irrefl 0)

theorem recvExact_of_ends {n : ℕ} {t : List UInt8} (h : t.length < n) (sizes : ℕ → ℕ) :
    ∃ sizes', recvExact ended n ⟨t, sizes⟩ = (.error ended, ⟨[], sizes'⟩) := by
  have hlt : ([] : List UInt8).length + t.length < n := by rwa [List.length_nil, Nat.zero_add]
  exact recvFrom_of_ends ended hlt

variable {payload t : List UInt8}

/-- A frame is read. -/
theorem readFrame_frame (hlen : payload.length < 2 ^ 32) (t : List UInt8) (sizes : ℕ → ℕ) :
    ∃ sizes', readFrame ended ⟨frame payload ++ t, sizes⟩ = (.ok payload, ⟨t, sizes'⟩) := by
  obtain ⟨sizes₁, hheader⟩ := recvExact_of_rest ended (pack payload.length) (payload ++ t) sizes
  obtain ⟨sizes₂, hbody⟩ := recvExact_of_rest ended payload t sizes₁
  refine ⟨sizes₂, ?_⟩
  rw [length_pack] at hheader
  rw [readFrame, frame, List.append_assoc, hheader]
  dsimp only
  rw [unpack_pack hlen]
  exact hbody

/-- A stream that ends inside a frame, or before it, is reported. -/
theorem readFrame_cut (hlen : payload.length < 2 ^ 32) (ht : t <+: frame payload)
    (hcut : t ≠ frame payload) (sizes : ℕ → ℕ) :
    ∃ sizes', readFrame ended ⟨t, sizes⟩ = (.error ended, ⟨[], sizes'⟩) := by
  have hshort : t.length < (frame payload).length :=
    lt_of_le_of_ne ht.length_le fun h => hcut (ht.eq_of_length h)
  rw [frame, List.length_append, length_pack] at hshort
  by_cases hheader : t.length < 4
  · obtain ⟨sizes', hread⟩ := recvExact_of_ends ended hheader sizes
    exact ⟨sizes', by rw [readFrame, hread]⟩
  · have hpack : pack payload.length <+: t :=
      List.prefix_of_prefix_length_le (List.prefix_append _ _) ht (by rw [length_pack]; omega)
    obtain ⟨body, rfl⟩ := hpack
    rw [List.length_append, length_pack] at hshort
    obtain ⟨sizes₁, hread⟩ := recvExact_of_rest ended (pack payload.length) body sizes
    obtain ⟨sizes₂, hbody⟩ := recvExact_of_ends ended (show body.length < payload.length by omega) sizes₁
    refine ⟨sizes₂, ?_⟩
    rw [length_pack] at hread
    rw [readFrame, hread]
    dsimp only
    rw [unpack_pack hlen]
    exact hbody

variable {payloads : List (List UInt8)}

/-- **What was framed is read back, however the stream is cut**, and what follows it is left. -/
theorem readFrames_frames (h : ∀ p ∈ payloads, p.length < 2 ^ 32) (t : List UInt8) (sizes : ℕ → ℕ) :
    ∃ sizes', readFrames ended payloads.length ⟨payloads.flatMap frame ++ t, sizes⟩ =
      ((payloads, none), ⟨t, sizes'⟩) := by
  induction payloads generalizing sizes with
  | nil => exact ⟨sizes, rfl⟩
  | cons p ps ih =>
    obtain ⟨hp, hps⟩ := List.forall_mem_cons.mp h
    obtain ⟨sizes₁, hframe⟩ := readFrame_frame ended hp (ps.flatMap frame ++ t) sizes
    obtain ⟨sizes₂, hframes⟩ := ih hps sizes₁
    refine ⟨sizes₂, ?_⟩
    rw [List.flatMap_cons, List.append_assoc, List.length_cons, readFrames, hframe]
    dsimp only
    rw [hframes]

/-- **A stream that ends inside a frame is reported** after the frames before it. -/
theorem readFrames_cut (h : ∀ p ∈ payloads, p.length < 2 ^ 32) (hlen : payload.length < 2 ^ 32)
    (ht : t <+: frame payload) (hcut : t ≠ frame payload) {k : ℕ} (hk : payloads.length < k)
    (sizes : ℕ → ℕ) :
    ∃ sizes', readFrames ended k ⟨payloads.flatMap frame ++ t, sizes⟩ =
      ((payloads, some ended), ⟨[], sizes'⟩) := by
  induction payloads generalizing k sizes with
  | nil =>
    obtain ⟨k, rfl⟩ := Nat.exists_eq_succ_of_ne_zero (Nat.ne_of_gt hk)
    obtain ⟨sizes', hread⟩ := readFrame_cut ended hlen ht hcut sizes
    refine ⟨sizes', ?_⟩
    rw [List.flatMap_nil, List.nil_append, readFrames, hread]
  | cons p ps ih =>
    obtain ⟨k, rfl⟩ := Nat.exists_eq_succ_of_ne_zero (Nat.ne_of_gt (Nat.zero_lt_of_lt hk))
    obtain ⟨hp, hps⟩ := List.forall_mem_cons.mp h
    obtain ⟨sizes₁, hframe⟩ := readFrame_frame ended hp (ps.flatMap frame ++ t) sizes
    obtain ⟨sizes₂, hframes⟩ := ih hps (Nat.lt_of_succ_lt_succ hk) sizes₁
    refine ⟨sizes₂, ?_⟩
    rw [List.flatMap_cons, List.append_assoc, readFrames, hframe]
    dsimp only
    rw [hframes]

/-! ## The reader that is fed -/

/-- A `Reader` that is fed what `recv` returns, until its frame is finished. -/
def follow (ended : ε) (r : Reader) (s : Socket) : Except ε (List UInt8) × Socket :=
  if (s.recv r.need).1 = [] then (.error ended, (s.recv r.need).2)
  else
    match r.feed (s.recv r.need).1 with
    | .inl next => follow ended next (s.recv r.need).2
    | .inr payload => (.ok payload, (s.recv r.need).2)
termination_by s.rest.length
decreasing_by exact recv_shorter ‹_›

/-- In the body, the reader is the loop. -/
theorem follow_body {n : ℕ} {buf : List UInt8} (hbuf : buf.length < n) (s : Socket) :
    follow ended (.body n buf) s = recvFrom ended n buf s := by
  fun_induction recvFrom ended n buf s with
  | case1 buf s hlt hnil => rw [follow, Reader.need, if_pos hnil]
  | case2 buf s hlt hne ih =>
    rw [follow, Reader.need, if_neg hne, Reader.feed]
    by_cases hmore : (buf ++ (s.recv (n - buf.length)).1).length < n
    · rw [if_pos hmore]
      exact ih hmore
    · rw [if_neg hmore, recvFrom, if_neg hmore]
  | case3 buf s hge => exact absurd hbuf hge

/-- In the header, it is the loop over the header and then the one over the body. -/
theorem follow_header {buf : List UInt8} (hbuf : buf.length < 4) (s : Socket) :
    follow ended (.header buf) s =
      match recvFrom ended 4 buf s with
      | (.error e, s) => (.error e, s)
      | (.ok header, s) => recvExact ended (unpack header) s := by
  fun_induction recvFrom ended 4 buf s with
  | case1 buf s hlt hnil => rw [follow, Reader.need, if_pos hnil]
  | case2 buf s hlt hne ih =>
    rw [follow, Reader.need, if_neg hne, Reader.feed]
    by_cases hmore : (buf ++ (s.recv (4 - buf.length)).1).length < 4
    · rw [if_pos hmore]
      exact ih hmore
    · rw [if_neg hmore, recvFrom, if_neg hmore]
      dsimp only
      by_cases hzero : unpack (buf ++ (s.recv (4 - buf.length)).1) = 0
      · rw [if_pos hzero, hzero, recvExact_zero]
      · rw [if_neg hzero]
        exact follow_body ended (Nat.pos_of_ne_zero hzero) _
  | case3 buf s hge => exact absurd hbuf hge

/-- **A reader that is fed chunk by chunk reads a frame as `_recv_exact` does.** -/
theorem readFrame_eq_follow (s : Socket) : readFrame ended s = follow ended (.header []) s :=
  (follow_header ended (by decide) s).symm

end Framing
