import Mathlib

/-!
# Length-prefixed frames on a byte stream

A frame is the length of its payload, in four bytes with the most significant first, and the
payload. A reader takes the stream in chunks of any size, never more than it still needs: first the
four bytes of the header, then as many as the header says. What a reader has read of an unfinished
frame is described by the bytes alone, however they were cut.

## Main definitions

* `Framing.pack`, `Framing.unpack`, `Framing.frame`: headers and frames
* `Framing.Reader`, `Framing.Reader.feed`: a reader, and one more chunk
* `Framing.Reader.HasRead`, `Framing.Complete`: what an unfinished and a finished frame have read

## Main results

* `Framing.unpack_pack`: the header of a payload of less than `2 ^ 32` bytes gives its length
* `Framing.Reader.feed_inl`, `Framing.Reader.feed_inr`: **what a reader has read after a chunk**
* `Framing.Complete.eq_frame`: where the stream goes on with a frame, a reader finishes with that
  frame and no other
-/

namespace Framing

/-- `struct.pack("!I", n)`. -/
def pack (n : ℕ) : List UInt8 :=
  [UInt8.ofNat (n / 2 ^ 24), UInt8.ofNat (n / 2 ^ 16), UInt8.ofNat (n / 2 ^ 8), UInt8.ofNat n]

/-- `struct.unpack("!I", header)`. -/
def unpack (header : List UInt8) : ℕ := header.foldl (fun n b => n * 256 + b.toNat) 0

/-- The frame of a payload. -/
def frame (payload : List UInt8) : List UInt8 := pack payload.length ++ payload

@[simp] theorem length_pack (n : ℕ) : (pack n).length = 4 := rfl

theorem unpack_pack {n : ℕ} (h : n < 2 ^ 32) : unpack (pack n) = n := by
  simp only [unpack, pack, List.foldl_cons, List.foldl_nil, UInt8.toNat_ofNat']
  omega

theorem frame_ne_nil (payload : List UInt8) : frame payload ≠ [] := List.cons_ne_nil _ _

/-- A reader in the middle of a frame: in its header, or in the body that the header announced. -/
inductive Reader
  | header (buf : List UInt8)
  | body (n : ℕ) (buf : List UInt8)
deriving DecidableEq

/-- A header and the payload it announces. -/
def Complete (bytes payload : List UInt8) : Prop :=
  ∃ header, bytes = header ++ payload ∧ header.length = 4 ∧ unpack header = payload.length

namespace Reader

/-- How many bytes are asked for at once: those that the header, or the body, still lacks. -/
def need : Reader → ℕ
  | header buf => 4 - buf.length
  | body n buf => n - buf.length

/-- One more chunk: the reader goes on, or has the payload. -/
def feed (chunk : List UInt8) : Reader → Reader ⊕ List UInt8
  | header buf =>
    if (buf ++ chunk).length < 4 then .inl (header (buf ++ chunk))
    else if unpack (buf ++ chunk) = 0 then .inr []
    else .inl (body (unpack (buf ++ chunk)) [])
  | body n buf =>
    if (buf ++ chunk).length < n then .inl (body n (buf ++ chunk)) else .inr (buf ++ chunk)

/-- The reader has read these bytes of a frame that is not finished. -/
def HasRead : Reader → List UInt8 → Prop
  | header buf, bytes => bytes = buf ∧ buf.length < 4
  | body n buf, bytes =>
    ∃ h, bytes = h ++ buf ∧ h.length = 4 ∧ unpack h = n ∧ buf.length < n

theorem hasRead_nil : (header []).HasRead [] := ⟨rfl, by decide⟩

variable {r r' : Reader} {bytes chunk payload : List UInt8}

/-- **A reader that goes on** has read the chunk as well. -/
theorem feed_inl (h : r.HasRead bytes) (hc : chunk.length ≤ r.need)
    (hf : r.feed chunk = .inl r') : r'.HasRead (bytes ++ chunk) := by
  cases r with
  | header buf =>
    obtain ⟨rfl, hbuf⟩ := h
    rw [feed] at hf
    split at hf
    · rename_i hlt
      cases hf
      exact ⟨rfl, hlt⟩
    split at hf
    · cases hf
    · rename_i hge hpos
      cases hf
      refine ⟨bytes ++ chunk, (List.append_nil _).symm, ?_, rfl, Nat.pos_iff_ne_zero.mpr hpos⟩
      rw [need] at hc
      rw [List.length_append] at hge ⊢
      omega
  | body n buf =>
    obtain ⟨head, rfl, hlen, hn, -⟩ := h
    rw [feed] at hf
    split at hf
    · rename_i hlt
      cases hf
      exact ⟨head, List.append_assoc .., hlen, hn, hlt⟩
    · cases hf

/-- **A reader that is finished** has read a header and the payload it announces. -/
theorem feed_inr (h : r.HasRead bytes) (hc : chunk.length ≤ r.need)
    (hf : r.feed chunk = .inr payload) : Complete (bytes ++ chunk) payload := by
  cases r with
  | header buf =>
    obtain ⟨rfl, hlt⟩ := h
    rw [feed] at hf
    split at hf
    · cases hf
    split at hf
    · rename_i hge h0
      cases hf
      refine ⟨bytes ++ chunk, (List.append_nil _).symm, ?_, h0⟩
      rw [need] at hc
      rw [List.length_append] at hge ⊢
      omega
    · cases hf
  | body n buf =>
    obtain ⟨head, rfl, hlen, hn, hlt⟩ := h
    rw [feed] at hf
    split at hf
    · cases hf
    · rename_i hge
      cases hf
      refine ⟨head, List.append_assoc .., hlen, ?_⟩
      rw [need] at hc
      rw [List.length_append] at hge ⊢
      omega

end Reader

/-- **The frame that a reader finishes with is the one the stream goes on with.** -/
theorem Complete.eq_frame {bytes payload rest sent : List UInt8} (h : Complete bytes payload)
    (hs : bytes ++ rest = frame sent) (hlen : sent.length < 2 ^ 32) :
    payload = sent ∧ bytes = frame sent ∧ rest = [] := by
  obtain ⟨head, rfl, hhead, hn⟩ := h
  rw [frame, List.append_assoc] at hs
  obtain ⟨rfl, hrest⟩ := List.append_inj hs (by rw [length_pack, hhead])
  rw [unpack_pack hlen] at hn
  have hnil : rest = [] := by
    have := congrArg List.length hrest
    rw [List.length_append] at this
    exact List.length_eq_zero_iff.mp (by omega)
  subst hnil
  rw [List.append_nil] at hrest
  subst hrest
  exact ⟨rfl, rfl, rfl⟩

end Framing
