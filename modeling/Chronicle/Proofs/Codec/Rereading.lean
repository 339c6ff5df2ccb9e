import Chronicle.Proofs.Codec.Block
import Chronicle.Proofs.Codec.Spelling

/-!
# What blocks tell

Reading a block is looked at from the other side: whatever a reader makes of
some bytes, the numbers in it fit their fields, and it took as many bytes as a
writing of it has.  So a node that was read from any block is one that has a
block, even where that block has no canonical form, as with flags beside zero
and one, negative numbers of parents, or remains behind the last interval.
What is left of a block behind the last interval is the free space of its node.
-/

namespace Chronicle

namespace Reader

variable {α β : Type}

/-- Whatever `reader` reads, it stands in the relation `P` to the number of bytes taken. -/
def Tells
    (reader : Reader α)
    (P : α → Nat → Prop) :
    Prop :=
  ∀ ⦃bytes : Bytes⦄ ⦃a : α⦄ ⦃rest : Bytes⦄,
    reader bytes = .ok (a, rest) → ∃ count, bytes.length = count + rest.length ∧ P a count

theorem Tells.pure
    {P : α → Nat → Prop}
    {a : α}
    (told : P a 0) :
    Tells (pure a) P := by
  intro bytes b rest read
  cases read
  exact ⟨0, (Nat.zero_add _).symm, told⟩

/-- A reader that fails tells anything. -/
theorem Tells.throw
    {P : α → Nat → Prop}
    (fault : Fault) :
    Tells (throw fault) P := by
  intro bytes a rest read
  cases read

theorem Tells.bind
    {first : Reader α}
    {next : α → Reader β}
    {P : α → Nat → Prop}
    {Q : β → Nat → Prop}
    (front : first.Tells P)
    (back : ∀ a taken, P a taken → (next a).Tells fun b count => Q b (taken + count)) :
    (first >>= next).Tells Q := by
  intro bytes b rest read
  change (first bytes >>= fun reached => next reached.1 reached.2) = _ at read
  cases begun : first bytes with
  | error fault =>
      rw [begun] at read
      cases read
  | ok reached =>
      rcases reached with ⟨a, middle⟩
      rw [begun] at read
      rcases front begun with ⟨taken, lengthFront, toldFront⟩
      rcases back a taken toldFront read with ⟨count, lengthBack, toldBack⟩
      refine ⟨taken + count, ?_, toldBack⟩
      rw [lengthFront, lengthBack, Nat.add_assoc]

/-- What the bytes taken tell, their number tells. -/
theorem Spells.tells
    {reader : Reader α}
    {P : α → Bytes → Prop}
    {Q : α → Nat → Prop}
    (spells : reader.Spells P)
    (image : ∀ a taken, P a taken → Q a taken.length) :
    reader.Tells Q := by
  intro bytes a rest read
  rcases spells read with ⟨taken, rfl, told⟩
  exact ⟨taken.length, List.length_append, image a taken told⟩

theorem tells_byte :
    byte.Tells fun _ count => count = 1 := by
  refine spells_byte.tells ?_
  rintro first taken rfl
  rfl

/-- An unsigned number that was read fits its field. -/
theorem tells_unsigned
    (width : Nat) :
    (unsigned width).Tells fun n count => n < LittleEndian.span width ∧ count = width := by
  refine (spells_unsigned width).tells ?_
  rintro n taken ⟨fits, rfl⟩
  exact ⟨fits, LittleEndian.length_encode width n⟩

/-- A signed number that was read fits its field. -/
theorem tells_signed
    (width : Nat) :
    (signed width).Tells fun n count =>
      -(LittleEndian.span width : Int) ≤ 2 * n ∧ 2 * n < (LittleEndian.span width : Int)
        ∧ count = width := by
  refine (spells_signed width).tells ?_
  rintro n taken ⟨low, high, rfl⟩
  exact ⟨low, high, LittleEndian.length_encodeSigned width n⟩

/-- An instant that was read is one of those there are. -/
theorem tells_instant :
    (signed 8).Tells fun n count =>
      -9223372036854775808 ≤ n ∧ n ≤ latestInstant ∧ count = 8 := by
  refine spells_instant.tells ?_
  rintro n taken ⟨low, high, rfl⟩
  exact ⟨low, high, LittleEndian.length_encodeSigned 8 n⟩

/-- What is told of each item is told of the items of a list, with the bytes of all together. -/
theorem tells_many
    {item : Reader α}
    {P : α → Prop}
    {size : α → Nat}
    (tells : item.Tells fun a count => P a ∧ count = size a)
    (number : Nat) :
    (many item number).Tells fun items count =>
      items.length = number ∧ (∀ a ∈ items, P a) ∧ count = (items.map size).sum := by
  induction number with
  | zero =>
      refine Tells.pure ⟨rfl, ?_, rfl⟩
      intro a member
      cases member
  | succ number ih =>
      refine tells.bind ?_
      rintro first taken ⟨toldFirst, takenFirst⟩
      refine ih.bind ?_
      rintro others count ⟨length, toldOthers, takenOthers⟩
      refine Tells.pure ⟨?_, ?_, ?_⟩
      · rw [List.length_cons, length]
      · intro a member
        rcases List.mem_cons.mp member with rfl | other
        · exact toldFirst
        · exact toldOthers a other
      · rw [List.map_cons, List.sum_cons, takenFirst, takenOthers, Nat.add_zero]

end Reader

/-- An interval that was read fits its fields, and takes as many bytes as it is written in. -/
theorem Interval.tells_read :
    Interval.read.Tells fun i count => i.Storable ∧ count = i.encodedSize := by
  refine spells_read.tells ?_
  rintro i taken ⟨storable, encoded⟩
  exact ⟨storable, length_of_encode encoded⟩

namespace Tree.Node

/-- A node that loses nothing on the way through its block. -/
structure Lossless
    (config : Config)
    (node : Node) : Prop
    extends node.Storable config where
  parent_small : ∀ above, node.parent = some above → above < 2147483648

/-- A parent whose number does not need all bits of its field is read back. -/
theorem Lossless.reread_eq
    {config : Config}
    {node : Node}
    (lossless : node.Lossless config) :
    node.reread = node := by
  rcases node with ⟨kind, seq, parent, start, stop, closed, intervals, children⟩
  have kept : (parent.bind fun above => if above < 2147483648 then some above else none)
      = parent := by
    cases parent with
    | none => rfl
    | some above => exact if_pos (lossless.parent_small above rfl)
  simp only [reread, kept]

/-! ## Reading the parts of a block -/

/-- What was read as a link fits its fields. -/
theorem tells_readLink :
    readLink.Tells fun link count =>
      (link.seq < 4294967296 ∧ -9223372036854775808 ≤ link.start ∧ link.start ≤ latestInstant)
        ∧ count = linkSize := by
  refine (Reader.tells_unsigned 4).bind ?_
  rintro seq taken ⟨seq_lt, rfl⟩
  refine Reader.tells_instant.bind ?_
  rintro start taken ⟨start_ge, start_le, rfl⟩
  exact Reader.Tells.pure ⟨⟨seq_lt, start_ge, start_le⟩, rfl⟩

/-- The number of bytes between the header of a node and its intervals. -/
def tableSize
    (config : Config) :
    Kind →
    Nat
  | .leaf => 0
  | .core => config.maxChildren * linkSize

/-- What stands in front of the intervals leaves room for as many as a node of the kind can have. -/
theorem tableSize_add_capacity
    {config : Config}
    (valid : config.Valid)
    (kind : Kind) :
    tableSize config kind + kind.capacity config = config.leafCapacity := by
  have room := valid.roomForInterval
  cases kind with
  | leaf => exact Nat.zero_add _
  | core =>
      simp only [tableSize, Kind.capacity]
      simp only [Config.coreCapacity, smallestInterval] at room ⊢
      omega

/-- No more children are read than a node can have, and those fit their fields. -/
theorem tells_readChildren
    (config : Config)
    (seq number : Nat)
    (kind : Kind) :
    (readChildren config seq number kind).Tells fun links count =>
      (∀ link ∈ links,
        link.seq < 4294967296 ∧ -9223372036854775808 ≤ link.start ∧ link.start ≤ latestInstant)
      ∧ links.length ≤ config.maxChildren
      ∧ (kind = .leaf → links = [])
      ∧ count = tableSize config kind := by
  cases kind with
  | leaf =>
      refine Reader.Tells.pure ⟨?_, Nat.zero_le _, fun _ => rfl, rfl⟩
      intro link member
      cases member
  | core =>
      unfold readChildren
      by_cases many : config.maxChildren < number
      · rw [if_pos many]
        exact (Reader.Tells.throw _).bind fun _ _ impossible => impossible
      · rw [if_neg many]
        refine (Reader.tells_many tells_readLink config.maxChildren).bind ?_
        rintro places taken ⟨length, each, rfl⟩
        refine Reader.Tells.pure ⟨?_, ?_, ?_, ?_⟩
        · intro link member
          exact each link (List.mem_of_mem_take member)
        · exact Nat.le_trans (List.length_take_le number places) (Nat.le_of_not_lt many)
        · intro impossible
          cases impossible
        · simp [tableSize, length]

/-- A node that was read is one that has a block, as soon as its intervals fit. -/
theorem tells_readBody
    (config : Config) :
    (readBody config).Tells fun node count =>
      (node.usedBytes ≤ node.kind.capacity config → node.Lossless config)
        ∧ count = nodeHeaderSize + tableSize config node.kind + node.usedBytes := by
  unfold readBody
  refine Reader.tells_byte.bind ?_
  rintro tag taken rfl
  cases Kind.ofTag? tag with
  | none => exact Reader.Tells.throw _
  | some kind =>
      refine Reader.tells_byte.bind ?_
      rintro closed taken rfl
      refine (Reader.tells_unsigned 4).bind ?_
      rintro seq taken ⟨seq_lt, rfl⟩
      refine (Reader.tells_signed 4).bind ?_
      rintro parent taken ⟨-, parent_lt, rfl⟩
      refine Reader.tells_instant.bind ?_
      rintro start taken ⟨start_ge, start_le, rfl⟩
      refine Reader.tells_instant.bind ?_
      rintro stop taken ⟨stop_ge, stop_le, rfl⟩
      refine (Reader.tells_unsigned 4).bind ?_
      rintro number taken ⟨-, rfl⟩
      refine (Reader.tells_unsigned 2).bind ?_
      rintro childCount taken ⟨-, rfl⟩
      refine (tells_readChildren config seq childCount kind).bind ?_
      rintro links taken ⟨toldLinks, fan, leaf, rfl⟩
      refine (Reader.tells_many Interval.tells_read number).bind ?_
      rintro intervals taken ⟨-, toldIntervals, rfl⟩
      rw [LittleEndian.span_four] at parent_lt
      have small : ∀ above, (if 0 ≤ parent then some parent.toNat else none) = some above →
          above < 2147483648 := by
        intro above known
        split at known
        · cases known
          omega
        · cases known
      refine Reader.Tells.pure ⟨?_, ?_⟩
      · intro room
        constructor
        · constructor
          · exact seq_lt
          · intro above known
            exact Nat.lt_trans (small above known) (by decide)
          · exact start_ge
          · exact start_le
          · exact stop_ge
          · exact stop_le
          · exact toldLinks
          · exact toldIntervals
          · exact fan
          · intro isLeaf
            show links.toArray = #[]
            rw [leaf isLeaf]
          · exact room
        · exact small
      · rw [usedBytes_eq_sum, nodeHeaderSize]
        show _ = 32 + tableSize config kind + (intervals.map Interval.encodedSize).sum
        omega

/-! ## There and back -/

/-- The checksum of a block that tells a node leaves its contents to be read. -/
theorem read_of_decode
    {config : Config}
    {block : Bytes}
    {node : Node}
    (decoded : decode config block = .ok node) :
    block.length = config.blockSize
      ∧ ∃ rest, readBody config (block.take (bodySize config)) = .ok (node, rest) := by
  unfold decode at decoded
  by_cases whole : block.length = config.blockSize
  · refine ⟨whole, ?_⟩
    simp only [bind, Except.bind, ne_eq, whole, not_true_eq_false, if_false] at decoded
    split at decoded
    · cases decoded
    · cases read : (readBody config).run (block.take (bodySize config)) with
      | error fault =>
          rw [read] at decoded
          cases decoded
      | ok reached =>
          rw [read] at decoded
          cases decoded
          exact ⟨reached.2, read⟩
  · simp only [bind, Except.bind, ne_eq, whole, not_false_eq_true, if_true] at decoded
    cases decoded

/-- Whatever stands before its checksum is read. -/
theorem decode_sealed
    {config : Config}
    {body rest : Bytes}
    {node : Node}
    (length : body.length = bodySize config)
    (room : checksumSize ≤ config.blockSize)
    (read : readBody config body = .ok (node, rest)) :
    decode config (body ++ Checksum.trailer body) = .ok node := by
  have whole : (body ++ Checksum.trailer body).length = config.blockSize := by
    rw [List.length_append, length, Checksum.length_trailer, bodySize]
    simp only [checksumSize] at room ⊢
    omega
  have front : (body ++ Checksum.trailer body).take (bodySize config) = body := by
    rw [← length, List.take_left]
  have back : (body ++ Checksum.trailer body).drop (bodySize config) = Checksum.trailer body := by
    rw [← length, List.drop_left]
  unfold decode
  rw [whole, front, back, Checksum.decode_trailer]
  simp only [ne_eq, not_true_eq_false, if_false]
  show (readBody config body >>= fun reached => _) = _
  rw [read]
  rfl

/-- A block that tells a node in full, and has as many bytes left over as the node has free. -/
structure ToldBy
    (config : Config)
    (node : Node)
    (block : Bytes) : Prop where
  size : block.length = config.blockSize
  decoded : decode config block = .ok node
  free : ∃ rest, readBody config (block.take (bodySize config)) = .ok (node, rest)
    ∧ rest.length = node.freeSpace config

/-- Whatever node a block tells has nothing to lose. -/
theorem lossless_of_decode
    {config : Config}
    {block : Bytes}
    {node : Node}
    (valid : config.Valid)
    (decoded : decode config block = .ok node) :
    node.Lossless config ∧ node.ToldBy config block := by
  rcases read_of_decode decoded with ⟨length, rest, read⟩
  rcases tells_readBody config read with ⟨count, balance, lossless, taken⟩
  have table := tableSize_add_capacity valid node.kind
  have minimum := valid.roomForInterval
  simp only [Config.coreCapacity, Config.leafCapacity, smallestInterval, nodeHeaderSize,
    checksumSize] at minimum table taken
  have body : (block.take (bodySize config)).length = config.blockSize - 4 := by
    rw [List.length_take, length, bodySize, checksumSize]
    omega
  have room : node.usedBytes ≤ node.kind.capacity config := by
    omega
  refine ⟨lossless room, length, decoded, rest, read, ?_⟩
  unfold freeSpace
  omega

/-- A node that has nothing to lose is told by its block. -/
theorem Lossless.exists_told
    {config : Config}
    {node : Node}
    (lossless : node.Lossless config)
    (valid : config.Valid) :
    ∃ block, node.encode config = .ok block ∧ node.ToldBy config block := by
  rcases exists_encode valid lossless.room with ⟨block, encoded, -⟩
  have decoded := decode_of_encode valid lossless.toStorable encoded
  rw [lossless.reread_eq] at decoded
  exact ⟨block, encoded, (lossless_of_decode valid decoded).2⟩

/--
Every node whose numbers fit their fields, whose intervals fit its room, and
whose children fit its places has a block of the one size there is, and is
told by it.  Whatever block tells a node, that node is of this sort, and
its own block tells the same node once more.
-/
theorem told_by_own_block
    {config : Config}
    (valid : config.Valid) :
    (∀ node : Node, node.Lossless config →
      ∃ block, node.encode config = .ok block ∧ node.ToldBy config block)
      ∧ ∀ (block : Bytes) (node : Node), decode config block = .ok node →
        node.Lossless config
          ∧ node.ToldBy config block
          ∧ ∃ again, node.encode config = .ok again ∧ node.ToldBy config again := by
  refine ⟨fun node lossless => lossless.exists_told valid, ?_⟩
  intro block node decoded
  rcases lossless_of_decode valid decoded with ⟨lossless, told⟩
  exact ⟨lossless, told, lossless.exists_told valid⟩

/-- Settings under which the smallest interval fills an inner node. -/
def snug : Config where
  blockSize := 81
  maxChildren := 2

/-- A closed inner node without room for another interval. -/
def filled : Node where
  kind := .core
  seq := 3
  parent := some 2147483647
  start := -5
  stop := 9
  closed := true
  intervals := #[⟨-5, 9, 0, .null, by decide⟩]
  children := #[⟨4, -5⟩, ⟨5, 2⟩]

/-- What a block holds before its checksum, with much in it that no node writes. -/
def scrawl : Bytes :=
  [2, 7, 3, 0, 0, 0, 255, 255, 255, 254]
    ++ List.replicate 16 1 ++ [0, 0, 0, 0, 9, 9] ++ List.replicate 45 170

theorem told_by_own_block_when_filled :
    snug.Valid
      ∧ (∃ block, filled.encode snug = .ok block ∧ filled.ToldBy snug block)
      ∧ ∃ node again, decode snug (scrawl ++ Checksum.trailer scrawl) = .ok node
        ∧ node.encode snug = .ok again
        ∧ node.ToldBy snug again := by
  have valid : snug.Valid := ⟨by decide, by decide, by decide, by decide⟩
  rcases told_by_own_block valid with ⟨there, back⟩
  have lossless : filled.Lossless snug := by
    refine ⟨⟨by decide, ?_, by decide, by decide, by decide, by decide, by decide, ?_,
      by decide, by decide, by decide⟩, ?_⟩
    · rintro above ⟨⟩
      decide
    · intro i member
      cases List.mem_singleton.mp member
      exact ⟨by decide, by decide, by decide, by decide⟩
    · rintro above ⟨⟩
      decide
  refine ⟨valid, there filled lossless, ?_⟩
  have read : readBody snug scrawl = .ok
      (⟨.leaf, 3, none, 72340172838076673, 72340172838076673, true, #[], #[]⟩,
        List.replicate 45 170) := by
    decide +kernel
  have decoded := decode_sealed rfl (by decide) read
  rcases back _ _ decoded with ⟨-, -, again, encoded, told⟩
  exact ⟨_, again, decoded, encoded, told⟩

end Tree.Node

end Chronicle
