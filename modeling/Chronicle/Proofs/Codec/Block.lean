import Chronicle.Proofs.Codec.Interval
import Chronicle.Tree.Block

/-!
# Nodes are read back

A node has a block as soon as its intervals take no more bytes than its kind
has room for.  If also its numbers fit their fields, the node is read back
from its block.  One thing can be lost on the way: the number of a parent is
written in a signed field, so that a number from two to the power of
thirty-one on is read as no parent.  No question about a node depends on it.
-/

namespace Chronicle.Tree.Node

/-! ## The size of a node -/

/-- The bytes that the intervals of a node take are those that each takes. -/
theorem usedBytes_eq_sum
    (node : Node) :
    node.usedBytes = (node.intervals.toList.map Interval.encodedSize).sum := by
  have folded : ∀ (items : List Interval) (start : Nat),
      items.foldl (fun total i => total + i.encodedSize) start
        = start + (items.map Interval.encodedSize).sum := by
    intro items
    induction items with
    | nil =>
        intro start
        rfl
    | cons i rest ih =>
        intro start
        rw [List.foldl_cons, ih, List.map_cons, List.sum_cons, Nat.add_assoc]
  rw [usedBytes, ← Array.foldl_toList, folded, Nat.zero_add]

theorem encodedSize_le_usedBytes
    {node : Node}
    {i : Interval}
    (member : i ∈ node.intervals.toList) :
    i.encodedSize ≤ node.usedBytes := by
  rcases List.append_of_mem member with ⟨before, after, split⟩
  rw [usedBytes_eq_sum, split, List.map_append, List.map_cons, List.sum_append_nat, List.sum_cons]
  omega

/-- No interval is written in less than one byte. -/
theorem size_intervals_le_usedBytes
    (node : Node) :
    node.intervals.size ≤ node.usedBytes := by
  have counted : ∀ items : List Interval,
      items.length ≤ (items.map Interval.encodedSize).sum := by
    intro items
    induction items with
    | nil => exact Nat.le_refl 0
    | cons i rest ih =>
        have : 0 < i.encodedSize := by
          simp only [Interval.encodedSize, Interval.sizeWith, Interval.headerSize]
          omega
        rw [List.length_cons, List.map_cons, List.sum_cons]
        omega
  rw [usedBytes_eq_sum, ← Array.length_toList]
  exact counted node.intervals.toList

@[simp]
theorem length_header
    (node : Node) :
    node.header.length = nodeHeaderSize := by
  simp [header, nodeHeaderSize]

@[simp]
theorem Link.length_encode
    (link : Link) :
    link.encode.length = linkSize := by
  simp [Link.encode, linkSize]

/-- The bytes in one of the places for children. -/
def placeBytes
    (node : Node)
    (place : Nat) :
    Bytes :=
  match node.children[place]? with
  | some link => link.encode
  | none => List.replicate linkSize 0

@[simp]
theorem length_placeBytes
    (node : Node)
    (place : Nat) :
    (node.placeBytes place).length = linkSize := by
  unfold placeBytes
  cases node.children[place]? with
  | none => exact List.length_replicate
  | some link => exact link.length_encode

theorem childTable_core
    {node : Node}
    (config : Config)
    (kind : node.kind = .core) :
    node.childTable config = (List.range config.maxChildren).flatMap node.placeBytes := by
  unfold childTable
  rw [kind]
  rfl

/-- What stands in front of the intervals of a node leaves room for as many as its kind can have. -/
theorem length_childTable
    {config : Config}
    (valid : config.Valid)
    (node : Node) :
    (node.childTable config).length + node.kind.capacity config = config.leafCapacity := by
  have room := valid.roomForInterval
  cases kind : node.kind with
  | leaf =>
      unfold childTable
      rw [kind]
      exact Nat.zero_add _
  | core =>
      rw [childTable_core config kind]
      simp only [List.length_flatMap, length_placeBytes, List.map_const', List.length_range,
        List.sum_replicate_nat, Kind.capacity]
      simp only [Config.coreCapacity, smallestInterval] at room ⊢
      omega

/-! ## Writing -/

/-- The bytes of all intervals are as many as the node counts for them. -/
theorem length_flatten_of_mapM
    {node : Node}
    {writings : List Bytes}
    (written : node.intervals.toList.mapM Interval.encode = .ok writings) :
    writings.flatten.length = node.usedBytes := by
  have lengths : ∀ {items : List Interval} {writings : List Bytes},
      List.Forall₂ (fun i bytes => Interval.encode i = .ok bytes) items writings →
        writings.flatten.length = (items.map Interval.encodedSize).sum := by
    intro items writings each
    induction each with
    | nil => rfl
    | cons first others ih =>
        rw [List.flatten_cons, List.length_append, ih, List.map_cons, List.sum_cons,
          Interval.length_of_encode first]
  rw [usedBytes_eq_sum]
  exact lengths (Reader.forall₂_of_mapM written)

/-- The block of a node that has a writing: its parts, zeros up to the checksum, the checksum. -/
theorem encode_eq
    {config : Config}
    {node : Node}
    {writings : List Bytes}
    (valid : config.Valid)
    (room : node.usedBytes ≤ node.kind.capacity config)
    (written : node.intervals.toList.mapM Interval.encode = .ok writings) :
    ∃ zeros body,
      body = node.header ++ (node.childTable config ++ (writings.flatten ++ zeros))
        ∧ body.length = bodySize config
        ∧ node.encode config = .ok (body ++ Checksum.trailer body) := by
  have table := length_childTable valid node
  have used := length_flatten_of_mapM written
  have minimum := valid.roomForInterval
  simp only [Config.coreCapacity, Config.leafCapacity, smallestInterval, nodeHeaderSize,
    checksumSize] at minimum table
  have content : (node.header ++ node.childTable config ++ writings.flatten).length
      ≤ bodySize config := by
    simp only [List.length_append, length_header, used, bodySize, nodeHeaderSize, checksumSize]
    omega
  refine ⟨List.replicate (bodySize config
    - (node.header ++ node.childTable config ++ writings.flatten).length) 0, _, rfl, ?_, ?_⟩
  · simp only [List.length_append, List.length_replicate] at content ⊢
    omega
  · unfold encode
    rw [written]
    show (if bodySize config < _ then _ else _) = _
    rw [if_neg (Nat.not_lt.mpr content)]
    simp only [List.append_assoc]
    rfl

/-- A node whose intervals fit has a block of the size that all blocks have. -/
theorem exists_encode
    {config : Config}
    {node : Node}
    (valid : config.Valid)
    (room : node.usedBytes ≤ node.kind.capacity config) :
    ∃ block, node.encode config = .ok block ∧ block.length = config.blockSize := by
  have table := length_childTable valid node
  have minimum := valid.roomForInterval
  have small := valid.blockFits
  simp only [Config.coreCapacity, Config.leafCapacity, smallestInterval, nodeHeaderSize,
    checksumSize] at minimum table
  have each : ∀ i ∈ node.intervals.toList, ∃ bytes, Interval.encode i = .ok bytes := by
    intro i member
    have size := encodedSize_le_usedBytes member
    exact Interval.encode_of_size (by omega)
  rcases Reader.exists_mapM each with ⟨writings, written⟩
  rcases encode_eq valid room written with ⟨zeros, body, -, length, encoded⟩
  refine ⟨_, encoded, ?_⟩
  rw [List.length_append, length, Checksum.length_trailer, bodySize, checksumSize]
  omega

/-! ## Reading -/

/-- A node that its block tells in full, but for the number of a parent. -/
structure Storable
    (config : Config)
    (node : Node) : Prop where
  seq_lt : node.seq < 4294967296
  parent_lt : ∀ above, node.parent = some above → above < 4294967296
  start_ge : -9223372036854775808 ≤ node.start
  start_le : node.start ≤ latestInstant
  stop_ge : -9223372036854775808 ≤ node.stop
  stop_le : node.stop ≤ latestInstant
  links : ∀ link ∈ node.children.toList,
    link.seq < 4294967296 ∧ -9223372036854775808 ≤ link.start ∧ link.start ≤ latestInstant
  intervals : ∀ i ∈ node.intervals.toList, i.Storable
  fan : node.children.size ≤ config.maxChildren
  leaf : node.kind = .leaf → node.children = #[]
  room : node.usedBytes ≤ node.kind.capacity config

/-- The node as it is read back: a parent whose number needs all bits of its field is lost. -/
def reread (node : Node) : Node :=
  { node with
    parent := node.parent.bind fun above => if above < 2147483648 then some above else none }

@[simp]
theorem kind_reread (node : Node) : node.reread.kind = node.kind := rfl

@[simp]
theorem seq_reread (node : Node) : node.reread.seq = node.seq := rfl

@[simp]
theorem intervals_reread (node : Node) : node.reread.intervals = node.intervals := rfl

@[simp]
theorem children_reread (node : Node) : node.reread.children = node.children := rfl

/-- Nothing more is lost when a node is read back once more. -/
@[simp]
theorem reread_reread
    (node : Node) :
    node.reread.reread = node.reread := by
  have again : ∀ parent : Option Nat,
      ((parent.bind fun above => if above < 2147483648 then some above else none).bind
        fun above => if above < 2147483648 then some above else none)
        = parent.bind fun above => if above < 2147483648 then some above else none := by
    intro parent
    cases parent with
    | none => rfl
    | some above =>
        by_cases small : above < 2147483648
        · simp [small]
        · simp [small]
  simp only [reread, again]

theorem reads_parent
    {parent : Option Nat}
    (fits : ∀ above, parent = some above → above < 4294967296) :
    ∃ n : Int, (Reader.signed 4).Reads
        (LittleEndian.encodeSigned 4 (parent.elim (-1) Int.ofNat)) n
      ∧ (if 0 ≤ n then some n.toNat else none)
        = parent.bind fun above => if above < 2147483648 then some above else none := by
  cases parent with
  | none =>
      exact ⟨-1, Reader.reads_signed (by decide) (by decide), rfl⟩
  | some above =>
      have bound := fits above rfl
      by_cases small : above < 2147483648
      · refine ⟨above, ?_, ?_⟩
        · show (Reader.signed 4).Reads (LittleEndian.encodeSigned 4 (above : Int)) above
          exact Reader.reads_signed_four (by omega) (Int.ofNat_lt.mpr small)
        · rw [if_pos (Int.natCast_nonneg above), Int.toNat_natCast]
          exact (if_pos small).symm
      · refine ⟨above - 4294967296, ?_, ?_⟩
        · have same : LittleEndian.encodeSigned 4 (Option.elim (some above) (-1) Int.ofNat)
              = LittleEndian.encodeSigned 4 ((above : Int) - 4294967296) := by
            simp only [LittleEndian.encodeSigned, LittleEndian.span_four, Option.elim_some]
            congr 2
            show (above : Int) % 4294967296 = _
            omega
          rw [same]
          exact Reader.reads_signed_four (by omega) (by omega)
        · rw [if_neg (by omega)]
          exact (if_neg small).symm

theorem reads_link
    {link : Link}
    (seq_lt : link.seq < 4294967296)
    (start_ge : -9223372036854775808 ≤ link.start)
    (start_le : link.start ≤ latestInstant) :
    readLink.Reads link.encode link := by
  simp only [latestInstant] at start_le
  have start := Reader.reads_signed_eight start_ge (by omega)
  exact (Reader.reads_unsigned_four seq_lt).bind (start.bind_nil (Reader.Reads.pure link))

/-- A place without a child reads as a link that is thrown away. -/
theorem reads_noLink :
    readLink.Reads (List.replicate linkSize 0) ⟨0, 0⟩ := by
  have empty : List.replicate linkSize (0 : UInt8) = Link.encode ⟨0, 0⟩ := by decide
  rw [empty]
  exact reads_link (by decide) (by decide) (by decide)

/-- The places for children are read back as the links in them, and empty ones behind. -/
theorem reads_children
    {config : Config}
    {node : Node}
    (storable : node.Storable config) :
    (readChildren config node.seq node.children.size node.kind).Reads
      (node.childTable config) node.children.toList := by
  cases kind : node.kind with
  | leaf =>
      unfold childTable
      rw [kind, storable.leaf kind]
      exact Reader.Reads.pure []
  | core =>
      have each : List.Forall₂ (fun link bytes => readLink.Reads bytes link)
          ((List.range config.maxChildren).map fun place => node.children[place]?.getD ⟨0, 0⟩)
          ((List.range config.maxChildren).map node.placeBytes) := by
        rw [List.forall₂_map_left_iff, List.forall₂_map_right_iff, List.forall₂_same]
        intro place _
        unfold placeBytes
        cases found : node.children[place]? with
        | none => exact reads_noLink
        | some link =>
            have member : link ∈ node.children.toList := by
              rw [← Array.getElem?_toList] at found
              exact List.mem_of_getElem? found
            rcases storable.links link member with ⟨seq_lt, start_ge, start_le⟩
            exact reads_link seq_lt start_ge start_le
      have places := Reader.reads_many each
      rw [List.length_map, List.length_range] at places
      rw [childTable_core config kind, List.flatMap_def]
      have prefixed :
          ((List.range config.maxChildren).map
            fun place => node.children[place]?.getD ⟨0, 0⟩).take node.children.size
            = node.children.toList := by
        apply List.ext_getElem
        · simp [storable.fan]
        · intro place inTable inNode
          have inside : place < node.children.size := by simpa using inNode
          simp [inside]
      unfold readChildren
      rw [if_neg (Nat.not_lt.mpr storable.fan)]
      apply places.bind_nil
      rw [prefixed]
      exact Reader.Reads.pure _

theorem reads_body
    {config : Config}
    {node : Node}
    {writings : List Bytes}
    (valid : config.Valid)
    (storable : node.Storable config)
    (short : node.usedBytes < 4294967296)
    (written : node.intervals.toList.mapM Interval.encode = .ok writings) :
    (readBody config).Reads
      (node.header ++ (node.childTable config ++ writings.flatten)) node.reread := by
  have start_ge := storable.start_ge
  have start_le := storable.start_le
  have stop_ge := storable.stop_ge
  have stop_le := storable.stop_le
  have count := size_intervals_le_usedBytes node
  simp only [latestInstant] at start_le stop_le
  have closed : (if node.closed then 1 else 0 : UInt8) ≠ 0 ↔ node.closed = true := by
    cases node.closed <;> decide
  have seq := Reader.reads_unsigned_four storable.seq_lt
  rcases reads_parent storable.parent_lt with ⟨above, parent, sameParent⟩
  have start := Reader.reads_signed_eight start_ge (by omega)
  have stop := Reader.reads_signed_eight stop_ge (by omega)
  have intervalCount : (Reader.unsigned 4).Reads
      (LittleEndian.encode 4 node.intervals.size) node.intervals.size :=
    Reader.reads_unsigned_four (by omega)
  have childCount : (Reader.unsigned 2).Reads
      (LittleEndian.encode 2 node.children.size) node.children.size := by
    apply Reader.reads_unsigned
    rw [LittleEndian.span_two]
    exact Nat.lt_of_le_of_lt storable.fan valid.childrenFit
  have intervals : (Reader.many Interval.read node.intervals.size).Reads
      writings.flatten node.intervals.toList := by
    rw [← Array.length_toList]
    apply Reader.reads_many
    have each := Reader.forall₂_of_mapM written
    refine List.forall₂_iff_get.mpr ⟨each.length_eq, ?_⟩
    intro place inItems inWritings
    have member := List.get_mem node.intervals.toList ⟨place, inItems⟩
    exact Interval.reads_encode (storable.intervals _ member) (each.get inItems inWritings)
  simp only [header, List.append_assoc]
  apply (Reader.reads_byte node.kind.tag).bind
  rw [Kind.ofTag?_tag]
  refine (Reader.reads_byte _).bind (seq.bind (parent.bind (start.bind (stop.bind
    (intervalCount.bind (childCount.bind ((reads_children storable).bind
      (intervals.bind_nil ?_))))))))
  have same : node.reread = {
      kind := node.kind
      seq := node.seq
      parent := if 0 ≤ above then some above.toNat else none
      start := node.start
      stop := node.stop
      closed := (if node.closed then 1 else 0 : UInt8) ≠ 0
      intervals := node.intervals.toList.toArray
      children := node.children.toList.toArray } := by
    rw [sameParent]
    simp only [closed, Bool.decide_eq_true, Array.toArray_toList]
    rfl
  rw [same]
  exact Reader.Reads.pure _

/-- A node is read back from its block. -/
theorem decode_of_encode
    {config : Config}
    {node : Node}
    {block : Bytes}
    (valid : config.Valid)
    (storable : node.Storable config)
    (encoded : node.encode config = .ok block) :
    Node.decode config block = .ok node.reread := by
  have table := length_childTable valid node
  have minimum := valid.roomForInterval
  have small := valid.blockFits
  have room := storable.room
  simp only [Config.coreCapacity, Config.leafCapacity, smallestInterval, nodeHeaderSize,
    checksumSize] at minimum table
  have each : ∀ i ∈ node.intervals.toList, ∃ bytes, Interval.encode i = .ok bytes := by
    intro i member
    have size := encodedSize_le_usedBytes member
    exact Interval.encode_of_size (by omega)
  rcases Reader.exists_mapM each with ⟨writings, written⟩
  rcases encode_eq valid room written with ⟨zeros, body, shape, length, encoding⟩
  have whole : block = body ++ Checksum.trailer body := by
    rw [encoding] at encoded
    cases encoded
    rfl
  have blockLength : block.length = config.blockSize := by
    rw [whole, List.length_append, length, Checksum.length_trailer, bodySize, checksumSize]
    omega
  have front : block.take (bodySize config) = body := by
    rw [whole, ← length, List.take_left]
  have back : block.drop (bodySize config) = Checksum.trailer body := by
    rw [whole, ← length, List.drop_left]
  have read := reads_body valid storable (by omega) written zeros
  rw [List.append_assoc, List.append_assoc, ← shape] at read
  unfold decode
  rw [blockLength, front, back, Checksum.decode_trailer]
  simp only [ne_eq, not_true_eq_false, if_false]
  show (readBody config body >>= fun reached => _) = _
  rw [read]
  rfl

end Chronicle.Tree.Node
