/-
The invariant of the piece tree.

The text of a treap is the in-order concatenation of its pieces. A treap is valid when
every piece lies inside its buffer and every node caches the length and the newlines of
its subtree. As long as the text fits into 32 bits, splitting, merging and copying
respect the text, and appending to the add side leaves the text of every piece as it is.
-/

import Microide.Editor.PieceTree

namespace Microide.Editor

open List Lib Text Treap Buffers AddChunk

theorem u32_of_lt {n : Nat} (h : n < 2 ^ 32) : u32 n = n :=
  Nat.mod_eq_of_lt h

/-! ### Buffers -/

/-- The newline index of every buffer is right, and offsets into it fit into 32 bits. -/
structure Buffers.Valid (b : Buffers) : Prop where
  newlines : ∀ buffer, b.newlinesOf buffer = positions lf (b.bufferOf buffer)
  original : b.original.length < 2 ^ 32
  chunks : ∀ chunk ∈ b.addChunks, chunk.bytes.length ≤ chunk.capacity ∧ chunk.capacity < 2 ^ 32

theorem Buffers.Valid.length_lt {b : Buffers} (h : b.Valid) (buffer : Nat) :
    (b.bufferOf buffer).length < 2 ^ 32 := by
  cases buffer with
  | zero => exact h.original
  | succ k =>
      rw [bufferOf, getD_eq_getElem?_getD]
      cases hk : b.addChunks[k]? with
      | none => simp
      | some chunk =>
          have := h.chunks chunk (mem_of_getElem? hk)
          simp only [Option.getD_some]
          omega

/-- `CountNewlines` counts the newlines of a slice. -/
theorem countNewlines_eq {b : Buffers} (h : b.Valid) {buffer first last : Nat} (hle : first ≤ last) :
    b.countNewlines buffer first last = (slice (b.bufferOf buffer) first last).count lf := by
  have htake : (b.bufferOf buffer).take last =
      (b.bufferOf buffer).take first ++ slice (b.bufferOf buffer) first last := by
    rw [← slice_zero, ← slice_zero, slice_append _ (Nat.zero_le _) hle]
  have hbound : (slice (b.bufferOf buffer) first last).count lf < 2 ^ 32 := by
    have hlength := h.length_lt buffer
    have hslice : (slice (b.bufferOf buffer) first last).length ≤ (b.bufferOf buffer).length := by
      rw [length_slice]
      omega
    have hcount := count_le_length (a := lf) (l := slice (b.bufferOf buffer) first last)
    omega
  rw [countNewlines, h.newlines, lowerBound_positions, lowerBound_positions, htake,
    count_append, Nat.add_sub_cancel_left, u32_of_lt hbound]

/-! ### Pieces and treaps -/

/-- The bytes of a piece. -/
def Piece.text (b : Buffers) (piece : Piece) : List UInt8 :=
  slice (b.bufferOf piece.buffer) piece.start (piece.start + piece.length)

/-- A piece lies inside its buffer and knows its newlines. -/
structure Piece.Valid (b : Buffers) (piece : Piece) : Prop where
  within : piece.start + piece.length ≤ (b.bufferOf piece.buffer).length
  newlines : piece.selfNewlines = (piece.text b).count lf

variable {piece : Piece}

theorem Piece.Valid.length_text {b : Buffers} (h : piece.Valid b) :
    (piece.text b).length = piece.length := by
  rw [Piece.text, length_slice, Nat.min_eq_left h.within, Nat.add_sub_cancel_left]

variable {t : Treap}

namespace Treap

/-- The in-order concatenation of the pieces. -/
def text (b : Buffers) : Treap → List UInt8
  | null => []
  | node left piece _ _ right => left.text b ++ piece.text b ++ right.text b

/-- Every piece is valid, and every node caches the length and the newlines of its
subtree. -/
def Valid (b : Buffers) : Treap → Prop
  | null => True
  | node left piece subtreeLength subtreeNewlines right =>
    left.Valid b ∧ piece.Valid b ∧ right.Valid b ∧
      subtreeLength = (left.text b ++ piece.text b ++ right.text b).length ∧
      subtreeNewlines = (left.text b ++ piece.text b ++ right.text b).count lf

variable {b : Buffers}

theorem treeLength_eq (h : t.Valid b) : t.treeLength = (t.text b).length := by
  cases t with
  | null => rfl
  | node left piece subtreeLength subtreeNewlines right => exact h.2.2.2.1

theorem treeNewlines_eq (h : t.Valid b) : t.treeNewlines = (t.text b).count lf := by
  cases t with
  | null => rfl
  | node left piece subtreeLength subtreeNewlines right => exact h.2.2.2.2

@[simp] theorem text_update (left : Treap) (piece : Piece) (right : Treap) :
    (update left piece right).text b = left.text b ++ piece.text b ++ right.text b := rfl

/-- `Update` keeps the caches right while the text fits into 32 bits. -/
theorem valid_update {left right : Treap} (hleft : left.Valid b) (hpiece : piece.Valid b)
    (hright : right.Valid b)
    (hsize : (left.text b ++ piece.text b ++ right.text b).length < 2 ^ 32) :
    (update left piece right).Valid b := by
  have hcount := count_le_length (a := lf) (l := left.text b ++ piece.text b ++ right.text b)
  refine ⟨hleft, hpiece, hright, ?_, ?_⟩
  · rw [treeLength_eq hleft, treeLength_eq hright, ← hpiece.length_text]
    rw [length_append, length_append] at hsize ⊢
    rw [u32_of_lt (by omega)]
    omega
  · rw [treeNewlines_eq hleft, treeNewlines_eq hright, hpiece.newlines]
    rw [count_append, count_append] at hcount ⊢
    rw [u32_of_lt (by omega)]
    omega

theorem valid_leaf (h : piece.Valid b) : (leaf piece).Valid b := by
  refine ⟨trivial, h, trivial, ?_, ?_⟩
  · simp [text, h.length_text]
  · simp [text, h.newlines]

theorem text_leaf (piece : Piece) : (leaf piece).text b = piece.text b := by
  simp [leaf, text]

end Treap

/-! ### Allocation -/

theorem valid_allocate {b : Buffers} (h : b.Valid) (priorityState : UInt32) {buffer start length : Nat}
    (hwithin : start + length ≤ (b.bufferOf buffer).length) :
    (allocate b priorityState buffer start length).1.Valid b ∧
      (allocate b priorityState buffer start length).1.text b =
        slice (b.bufferOf buffer) start (start + length) := by
  have hlt := h.length_lt buffer
  refine ⟨⟨hwithin, ?_⟩, rfl⟩
  change b.countNewlines buffer start (u32 (start + length)) = _
  rw [u32_of_lt (by omega), countNewlines_eq h (by omega)]
  rfl

/-! ### Splitting and merging -/

/-- A cut piece is two valid pieces. -/
theorem Piece.Valid.cut {b : Buffers} (h : b.Valid) (hpiece : piece.Valid b) {within : Nat}
    (hle : within ≤ piece.length) (priorityState : UInt32) : let head := { piece with
      length := within
      selfNewlines := b.countNewlines piece.buffer piece.start (u32 (piece.start + within)) }
    let tail := { (allocate b priorityState piece.buffer (u32 (piece.start + within))
      (piece.length - within)).1 with priority := piece.priority }
    head.Valid b ∧ head.text b = (piece.text b).take within ∧
      tail.Valid b ∧ tail.text b = (piece.text b).drop within := by
  intro head tail
  have hwithin := hpiece.within
  have hlt := h.length_lt piece.buffer
  have hoffset : u32 (piece.start + within) = piece.start + within := u32_of_lt (by omega)
  have hhead : head.text b = (piece.text b).take within := by
    rw [Piece.text, Piece.text, take_slice _ (by omega)]
  have htail : tail.text b = (piece.text b).drop within := by
    simp only [tail, Piece.text, allocate]
    rw [drop_slice]
    congr 1
    omega
  refine ⟨⟨by simp only [head]; omega, ?_⟩, hhead, ⟨?_, ?_⟩, htail⟩
  · simp only [head, hoffset]
    rw [countNewlines_eq h (by omega)]
    rfl
  · simp only [tail, allocate]
    omega
  · simp only [tail, Piece.text, allocate, hoffset]
    rw [u32_of_lt (by omega), countNewlines_eq h (by omega)]

/-- **Split cuts the text.** -/
theorem split_spec {b : Buffers} (h : b.Valid) (priorityState : UInt32) (ht : t.Valid b)
    (hsize : (t.text b).length < 2 ^ 32) (pos : Nat) : (split b priorityState t pos).1.Valid b ∧
      (split b priorityState t pos).1.text b = (t.text b).take pos ∧
      (split b priorityState t pos).2.1.Valid b ∧
      (split b priorityState t pos).2.1.text b = (t.text b).drop pos := by
  induction t generalizing pos with
  | null => exact ⟨trivial, by simp [split, text], trivial, by simp [split, text]⟩
  | node left piece subtreeLength subtreeNewlines right ihl ihr =>
      obtain ⟨hleft, hpiece, hright, -, -⟩ := ht
      rw [text, length_append, length_append] at hsize
      have hlength := hpiece.length_text
      rw [split]
      simp only [treeLength_eq hleft]
      split
      · next hpos =>
        obtain ⟨hll, htextll, hlr, htextlr⟩ := ihl hleft (by omega) pos
        refine ⟨hll, ?_, valid_update hlr hpiece hright ?_, ?_⟩
        · rw [htextll, text, append_assoc, take_append_of_le_length hpos]
        · rw [htextlr, length_append, length_append, length_drop]
          omega
        · rw [text_update, htextlr, text, append_assoc, append_assoc,
            drop_append_of_le_length hpos]
      · next hpos =>
        rw [u32_of_lt (by omega)]
        split
        · next hafter =>
          obtain ⟨hrl, htextrl, hrr, htextrr⟩ := ihr hright (by omega)
            (pos - (left.text b).length - piece.length)
          have hsub : pos - (left.text b ++ piece.text b).length =
              pos - (left.text b).length - piece.length := by
            rw [length_append]
            omega
          have hlong : (left.text b ++ piece.text b).length ≤ pos := by
            rw [length_append]
            omega
          refine ⟨valid_update hleft hpiece hrl ?_, ?_, hrr, ?_⟩
          · rw [htextrl, length_append, length_append, length_take]
            omega
          · rw [text_update, htextrl, text, take_append, take_of_length_le hlong, hsub]
          · rw [htextrr, text, drop_append, drop_of_length_le hlong, hsub, nil_append]
        · next hafter =>
          obtain ⟨hhead, htextHead, htail, htextTail⟩ := Piece.Valid.cut h hpiece
            (show pos - (left.text b).length ≤ piece.length by omega) priorityState
          have hle : pos - (left.text b).length ≤ (piece.text b).length := by omega
          have htakeLeft : (left.text b).take pos = left.text b := take_of_length_le (by omega)
          have hdropLeft : (left.text b).drop pos = [] := drop_of_length_le (by omega)
          refine ⟨valid_update hleft hhead trivial ?_, ?_,
            valid_update trivial htail hright ?_, ?_⟩
          · rw [htextHead]
            simp only [text, length_append, length_take, length_nil]
            omega
          · rw [text_update, htextHead]
            simp only [text, append_nil, append_assoc]
            rw [take_append, htakeLeft, take_append_of_le_length hle]
          · rw [htextTail]
            simp only [text, length_append, length_drop, length_nil]
            omega
          · rw [text_update, htextTail]
            simp only [text, nil_append, append_assoc]
            rw [drop_append, hdropLeft, nil_append, drop_append_of_le_length hle]

/-- **Merge joins the texts.** -/
theorem merge_spec {b : Buffers} {left right : Treap} (hleft : left.Valid b) (hright : right.Valid b)
    (hsize : (left.text b ++ right.text b).length < 2 ^ 32) :
    (merge left right).Valid b ∧ (merge left right).text b = left.text b ++ right.text b := by
  induction left, right using merge.induct with
  | case1 right => exact ⟨by rwa [merge], by simp [merge, text]⟩
  | case2 left hne =>
      cases left with
      | null => exact absurd rfl hne
      | node ll lp ln lc lr =>
          have heq : merge (.node ll lp ln lc lr) .null = .node ll lp ln lc lr := by
            rw [merge]
            simp
          rw [heq]
          exact ⟨hleft, by simp [text]⟩
  | case3 ll lp ln lc lr rl rp rn rc rr hpriority ih =>
      obtain ⟨hll, hlp, hlr, -, -⟩ := hleft
      simp only [text, length_append] at hsize
      obtain ⟨hvalid, htext⟩ := ih hlr hright (by simp only [text, length_append]; omega)
      rw [merge, if_pos hpriority]
      refine ⟨valid_update hll hlp hvalid ?_, ?_⟩
      · rw [htext]
        simp only [text, length_append]
        omega
      · rw [text_update, htext]
        simp [text]
  | case4 ll lp ln lc lr rl rp rn rc rr hpriority ih =>
      obtain ⟨hrl, hrp, hrr, -, -⟩ := hright
      simp only [text, length_append] at hsize
      obtain ⟨hvalid, htext⟩ := ih hleft hrl (by simp only [text, length_append]; omega)
      rw [merge, if_neg hpriority]
      refine ⟨valid_update hvalid hrp hrr ?_, ?_⟩
      · rw [htext]
        simp only [text, length_append]
        omega
      · rw [text_update, htext]
        simp [text]

/-- **CopyRange copies a slice of the text.** -/
theorem copyRange_eq {b : Buffers} (pos last : Nat) (ht : t.Valid b) {base : Nat}
    (hsize : base + (t.text b).length < 2 ^ 32) :
    copyRange b pos last t base = slice (t.text b) (pos - base) (last - base) := by
  induction t generalizing base with
  | null => simp [copyRange, text]
  | node left piece subtreeLength subtreeNewlines right ihl ihr =>
      obtain ⟨hleft, hpiece, hright, hlength, -⟩ := ht
      have hpieceLength := hpiece.length_text
      rw [text, length_append, length_append] at hsize
      rw [length_append, length_append] at hlength
      rw [copyRange, treeLength_eq hleft, hlength, u32_of_lt (by omega), text]
      split
      · next hprune =>
        rw [eq_comm, slice_eq_nil_iff]
        simp only [length_append]
        omega
      · next hprune =>
        dsimp only
        rw [u32_of_lt (show base + (left.text b).length < 2 ^ 32 by omega),
          u32_of_lt (show base + (left.text b).length + piece.length < 2 ^ 32 by omega),
          ihl hleft (by omega), ihr hright (by omega), slice_of_append, slice_of_append,
          length_append]
        have hown : (if max pos (base + (left.text b).length) <
              min last (base + (left.text b).length + piece.length) then
            slice (b.bufferOf piece.buffer)
              (piece.start + (max pos (base + (left.text b).length) - (base + (left.text b).length)))
              (piece.start + (max pos (base + (left.text b).length) - (base + (left.text b).length)) +
                (min last (base + (left.text b).length + piece.length) -
                  max pos (base + (left.text b).length)))
            else []) =
            slice (piece.text b) (pos - base - (left.text b).length)
              (last - base - (left.text b).length) := by
          split
          · rw [Piece.text, slice_slice]
            congr 1 <;> omega
          · rw [eq_comm, slice_eq_nil_iff]
            omega
        congr 2 <;> omega

/-! ### Appending to the add side -/

/-- Every buffer has grown at its end only. -/
def Buffers.Extends (b b' : Buffers) : Prop :=
  ∀ buffer, b.bufferOf buffer <+: b'.bufferOf buffer

/-- Growing buffers leave a piece as it is. -/
theorem Piece.Valid.extend {b b' : Buffers} (h : b.Extends b') (hpiece : piece.Valid b) :
    piece.text b' = piece.text b ∧ piece.Valid b' := by
  obtain ⟨more, hmore⟩ := h piece.buffer
  have htext : piece.text b' = piece.text b := by
    rw [Piece.text, Piece.text, ← hmore, slice_append_of_le _ _ hpiece.within]
  refine ⟨htext, ?_, by rw [htext, hpiece.newlines]⟩
  rw [← hmore, length_append]
  have := hpiece.within
  omega

theorem Treap.Valid.extend {b b' : Buffers} (h : b.Extends b') (ht : t.Valid b) :
    t.text b' = t.text b ∧ t.Valid b' := by
  induction t with
  | null => exact ⟨rfl, trivial⟩
  | node left piece subtreeLength subtreeNewlines right ihl ihr =>
      obtain ⟨hleft, hpiece, hright, hlength, hnewlines⟩ := ht
      obtain ⟨htextLeft, hleft'⟩ := ihl hleft
      obtain ⟨htextPiece, hpiece'⟩ := hpiece.extend h
      obtain ⟨htextRight, hright'⟩ := ihr hright
      refine ⟨by simp only [text, htextLeft, htextPiece, htextRight], hleft', hpiece', hright', ?_⟩
      rw [htextLeft, htextPiece, htextRight]
      exact ⟨hlength, hnewlines⟩

/-- The add chunks with one more behind or with the last one changed. -/
theorem bufferOf_concat (b : Buffers) (init : List AddChunk) (chunk : AddChunk) (k : Nat) :
    { b with addChunks := init ++ [chunk] }.bufferOf (k + 1) =
        (if k = init.length then chunk.bytes else (init.getD k {}).bytes) ∧
      { b with addChunks := init ++ [chunk] }.newlinesOf (k + 1) =
        (if k = init.length then chunk.newlines else (init.getD k {}).newlines) := by
  simp only [bufferOf, newlinesOf]
  by_cases hk : k = init.length
  · simp [hk]
  · have hget : (init ++ [chunk])[k]? = init[k]? := by
      by_cases hlt : k < init.length
      · exact getElem?_append_left hlt
      · rw [getElem?_eq_none (by simp; omega), getElem?_eq_none (by omega)]
    simp [hk, hget]

/-- A chunk that has room indexes what is appended to it. -/
theorem AddChunk.append_newlines {chunk : AddChunk} (hindex : chunk.newlines = positions lf chunk.bytes)
    {text : List UInt8} (hroom : chunk.bytes.length + text.length < 2 ^ 32) :
    (chunk.append text).newlines = positions lf (chunk.append text).bytes := by
  simp only [append, positions_append]
  rw [u32_of_lt (show chunk.bytes.length < 2 ^ 32 by omega)]
  congr 1
  apply map_congr_left
  intro offset hoffset
  have := lt_of_mem_positions lf hoffset
  rw [u32_of_lt (by omega), Nat.add_comm]

/-- The chunk an append goes to: the last one, or a fresh one, with room for the text. -/
theorem chunkWithRoom_spec (R : Reserve) {b : Buffers} (h : b.Valid) {needed : Nat}
    (hsize : needed < 2 ^ 32) :
    ∃ init chunk, chunkWithRoom R b needed = { b with addChunks := init ++ [chunk] } ∧
      { b with addChunks := init ++ [chunk] }.Valid ∧
      b.Extends { b with addChunks := init ++ [chunk] } ∧
      chunk.newlines = positions lf chunk.bytes ∧
      chunk.bytes.length + needed ≤ chunk.capacity ∧ chunk.capacity < 2 ^ 32 := by
  have hfresh : ∃ init chunk, startAddChunk R b needed = { b with addChunks := init ++ [chunk] } ∧
      { b with addChunks := init ++ [chunk] }.Valid ∧
      b.Extends { b with addChunks := init ++ [chunk] } ∧
      chunk.newlines = positions lf chunk.bytes ∧
      chunk.bytes.length + needed ≤ chunk.capacity ∧ chunk.capacity < 2 ^ 32 := by
    obtain ⟨grown, hgrown, hstart⟩ : ∃ grown, grown < 2 ^ 32 ∧ startAddChunk R b needed =
        { b with addChunks := b.addChunks ++ [{ capacity := R.capacity (max grown needed) }] } := by
      unfold startAddChunk
      split
      · exact ⟨kMinAddChunkBytes, by decide, rfl⟩
      · next chunk _ =>
        refine ⟨min kMaxAddChunkBytes (chunk.capacity * 2), ?_, rfl⟩
        have : kMaxAddChunkBytes < 2 ^ 32 := by decide
        omega
    have hcapacity := R.capacity_lt (max grown needed) (by omega)
    have hroom := R.le_capacity (max grown needed)
    refine ⟨_, _, hstart, ⟨?_, h.original, ?_⟩, ?_, rfl, ?_, hcapacity⟩
    · intro buffer
      cases buffer with
      | zero => exact h.newlines 0
      | succ k =>
          obtain ⟨hbuffer, hnewlines⟩ := bufferOf_concat b b.addChunks
            { capacity := R.capacity (max grown needed) } k
          rw [hbuffer, hnewlines]
          split
          · rfl
          · exact h.newlines (k + 1)
    · rw [forall_mem_append, forall_mem_singleton]
      exact ⟨h.chunks, Nat.zero_le _, hcapacity⟩
    · intro buffer
      cases buffer with
      | zero => exact prefix_rfl
      | succ k =>
          rw [(bufferOf_concat b b.addChunks { capacity := R.capacity (max grown needed) } k).1]
          split
          · next hk => simp [bufferOf, hk]
          · exact prefix_rfl
    · simp only [length_nil]
      omega
  unfold chunkWithRoom
  split
  · exact hfresh
  · next chunk hlast =>
    split
    · exact hfresh
    · next hroom =>
      obtain ⟨init, hchunks⟩ := getLast?_eq_some_iff.mp hlast
      have hmem : chunk ∈ b.addChunks := by simp [hchunks]
      have heq : b = { b with addChunks := init ++ [chunk] } := by rw [← hchunks]
      refine ⟨init, chunk, heq, heq ▸ h, ?_, ?_, by omega, (h.chunks chunk hmem).2⟩
      · rw [← heq]
        exact fun _ => prefix_rfl
      · have hindex := h.newlines (init.length + 1)
        simpa [bufferOf, newlinesOf, hchunks] using hindex

/-- **AppendToAdd** stores the text behind what is there. -/
theorem appendToAdd_spec (R : Reserve) {b : Buffers} (h : b.Valid) {text : List UInt8}
    (hsize : text.length < 2 ^ 32) :
    (appendToAdd R b text).2.Valid ∧ b.Extends (appendToAdd R b text).2 ∧
      (appendToAdd R b text).1.offset + text.length ≤
        ((appendToAdd R b text).2.bufferOf (appendToAdd R b text).1.buffer).length ∧
      slice ((appendToAdd R b text).2.bufferOf (appendToAdd R b text).1.buffer)
        (appendToAdd R b text).1.offset ((appendToAdd R b text).1.offset + text.length) = text := by
  obtain ⟨init, chunk, htarget, hvalid, hextends, hindex, hroom, hcapacity⟩ :=
    chunkWithRoom_spec R h hsize
  have hresult : appendToAdd R b text =
      ({ buffer := init.length + 1, offset := chunk.bytes.length },
        { b with
          addChunks := init ++ [chunk.append text]
          addTotalBytes := b.addTotalBytes + text.length }) := by
    have hoffset : u32 chunk.bytes.length = chunk.bytes.length := u32_of_lt (by omega)
    simp [appendToAdd, htarget, hoffset]
  have hbuffer := bufferOf_concat { b with addTotalBytes := b.addTotalBytes + text.length } init
    (chunk.append text)
  have hbefore := bufferOf_concat b init chunk
  rw [hresult]
  refine ⟨⟨?_, h.original, ?_⟩, ?_, ?_, ?_⟩
  · intro buffer
    cases buffer with
    | zero => exact h.newlines 0
    | succ k =>
        rw [(hbuffer k).1, (hbuffer k).2]
        have hk := hvalid.newlines (k + 1)
        rw [(hbefore k).1, (hbefore k).2] at hk
        split
        · exact append_newlines hindex (by omega)
        · next hne =>
          rwa [if_neg hne, if_neg hne] at hk
  · have hchunks := hvalid.chunks
    rw [forall_mem_append, forall_mem_singleton] at hchunks ⊢
    refine ⟨hchunks.1, ?_, hcapacity⟩
    simp only [append, length_append]
    omega
  · intro buffer
    cases buffer with
    | zero => exact prefix_rfl
    | succ k =>
        refine (hextends (k + 1)).trans ?_
        rw [(hbuffer k).1, (hbefore k).1]
        split
        · exact prefix_append _ _
        · exact prefix_rfl
  · rw [(hbuffer init.length).1, if_pos rfl]
    simp [append]
  · rw [(hbuffer init.length).1, if_pos rfl]
    simp only [append]
    rw [slice_to_end _ _ (by simp), drop_left]

end Microide.Editor
