import RouteComments.Editor.Snapshot
import RouteComments.Proofs.SimultaneousEdits
import RouteComments.Proofs.WrittenFiles

set_option autoImplicit false

namespace RouteComments

open Text

namespace Operation

theorem mayPrecede_trans {first second third : Operation} (early : mayPrecede first second = true)
    (late : mayPrecede second third = true) : mayPrecede first third = true := by
  rw [mayPrecede_iff] at early late ⊢
  omega

/-- A check of neighbours is a check of all pairs. -/
theorem pairwise_of_areOrdered {operations : List Operation} (ordered : areOrdered operations = true) :
    operations.Pairwise fun earlier later => mayPrecede earlier later = true := by
  match operations with
  | [] => exact List.Pairwise.nil
  | [_] => exact List.pairwise_singleton _ _
  | first :: second :: rest =>
    rw [areOrdered, Bool.and_eq_true] at ordered
    obtain ⟨before, onward⟩ := ordered
    have sorted := pairwise_of_areOrdered onward
    refine List.pairwise_cons.mpr ⟨?_, sorted⟩
    intro later member
    rcases List.mem_cons.mp member with rfl | member
    · exact before
    · exact mayPrecede_trans before (List.rel_of_pairwise_cons sorted member)

theorem areOrdered_iff {operations : List Operation} :
    areOrdered operations = true ↔ operations.Pairwise fun earlier later => mayPrecede earlier later = true :=
  ⟨pairwise_of_areOrdered, areOrdered_of_pairwise⟩

end Operation

namespace Plan

open Operation

/-- Operations that delete the stale lines of a plan in ranges with gaps between them and insert its comments once for
each line. -/
structure NormalForm (plan : Plan) (operations : List Operation) : Prop where
  deletionsFilled : ∀ range, .delete range ∈ operations → range.start < range.stop
  deletionsApart : operations.Pairwise fun a b => ∀ range other, a = .delete range → b = .delete other →
    range.stop < other.start ∨ other.stop < range.start
  deletionsCover : ∀ line, (∃ range, .delete range ∈ operations ∧ range.contains line = true) ↔
    ∃ block ∈ plan, block.stale.contains line = true
  insertionsApart : operations.Pairwise fun a b => ∀ line text other more, a = .insert line text →
    b = .insert other more → line ≠ other
  insertionsExact : ∀ line text, .insert line text ∈ operations ↔
    (∃ block ∈ plan, block.line = line ∧ block.endpoints ≠ []) ∧
      text = joinWith ['\n'] ((plan.filter (·.line = line)).flatMap Block.comments)

theorem delete_mem_operations {plan : Plan} {range : LineRange} :
    .delete range ∈ plan.operations ↔ range ∈ LineRange.union (plan.map (·.stale)) := by
  rw [mem_operations]
  constructor
  · rintro (⟨other, member, same⟩ | ⟨_, _, same⟩)
    · cases same
      exact member
    · cases same
  · exact fun member => .inl ⟨range, member, rfl⟩

theorem insert_mem_operations {plan : Plan} {line : Nat} {text : Text} :
    .insert line text ∈ plan.operations ↔
      plan.commentsAt line ≠ [] ∧ text = joinWith ['\n'] (plan.commentsAt line) := by
  rw [mem_operations]
  constructor
  · rintro (⟨_, _, same⟩ | ⟨_, filled, same⟩)
    · cases same
    · cases same
      exact ⟨filled, rfl⟩
  · rintro ⟨filled, rfl⟩
    exact .inr ⟨line, filled, rfl⟩

/-- A line gets comments exactly if a block with endpoints stands on it. -/
theorem commentsAt_ne_nil_iff {plan : Plan} {line : Nat} :
    plan.commentsAt line ≠ [] ↔ ∃ block ∈ plan, block.line = line ∧ block.endpoints ≠ [] := by
  constructor
  · intro filled
    obtain ⟨block, member, here, commented⟩ := mem_of_commentsAt_ne_nil filled
    exact ⟨block, member, here, List.map_eq_nil_iff.not.mp commented⟩
  · rintro ⟨block, member, here, filled⟩
    obtain ⟨endpoint, listed⟩ := List.exists_mem_of_ne_nil _ filled
    exact List.ne_nil_of_mem (mem_commentsAt.mpr ⟨block, member, here, List.mem_map_of_mem listed⟩)

theorem operations_normalForm (plan : Plan) : NormalForm plan plan.operations where
  deletionsFilled range member := (LineRange.union_spec _).1.filled range (delete_mem_operations.mp member)
  deletionsApart := by
    refine List.pairwise_append.mpr ⟨?_, ?_, ?_⟩
    · refine List.pairwise_map.mpr ((LineRange.union_spec _).1.apart.imp ?_)
      rintro earlier later gap _ _ ⟨⟩ ⟨⟩
      exact .inl gap
    · exact List.pairwise_map.mpr (List.pairwise_of_forall fun _ _ _ _ same => by cases same)
    · rintro deletion - insertion member range other - same
      obtain ⟨entry, _, rfl⟩ := List.mem_map.mp member
      cases same
  deletionsCover line := by
    have covered := covers_union_stale plan line
    simpa only [delete_mem_operations, LineRange.Covers, marksStale, List.any_eq_true] using covered
  insertionsApart := by
    refine List.pairwise_append.mpr ⟨?_, ?_, ?_⟩
    · exact List.pairwise_map.mpr (List.pairwise_of_forall fun _ _ _ _ _ _ same => by cases same)
    · refine List.pairwise_map.mpr ((commentsByLine_spec plan).1.imp ?_)
      rintro earlier later before _ _ _ _ ⟨⟩ ⟨⟩
      exact Nat.ne_of_lt before
    · rintro deletion member insertion - line text other more same -
      obtain ⟨range, _, rfl⟩ := List.mem_map.mp member
      cases same
  insertionsExact line text := by
    rw [insert_mem_operations, commentsAt_ne_nil_iff, commentsAt_eq_filter]

/-- The key by which operations are sorted tells them apart. -/
theorem eq_of_mem_operations {plan : Plan} {first second : Operation} (member : first ∈ plan.operations)
    (otherMember : second ∈ plan.operations) (anchors : first.anchor = second.anchor)
    (ranks : first.rank = second.rank) : first = second := by
  cases first with
  | delete range =>
    cases second with
    | insert line text => cases ranks
    | delete other =>
      have separated := (LineRange.union_spec (plan.map (·.stale))).1
      rw [delete_mem_operations] at member otherMember
      have filled := separated.filled range member
      have otherFilled := separated.filled other otherMember
      simp only [anchor] at anchors
      rcases separated.eq_or_apart member otherMember with rfl | before | behind
      · rfl
      · omega
      · omega
  | insert line text =>
    cases second with
    | delete range => cases ranks
    | insert other more =>
      rw [insert_mem_operations] at member otherMember
      simp only [anchor] at anchors
      subst anchors
      rw [member.2, otherMember.2]

/-- Of the orders of its operations a plan passes the check with its own only. -/
theorem areOrdered_iff_eq {plan : Plan} {operations : List Operation} (perm : operations.Perm plan.operations) :
    areOrdered operations = true ↔ operations = plan.orderedOperations := by
  constructor
  · intro ordered
    have sorted := order_sorted plan.operations
    have orderedPerm := order_perm plan.operations
    refine List.Perm.eq_of_pairwise ?_ (areOrdered_iff.mp ordered) sorted (perm.trans orderedPerm.symm)
    intro first second member otherMember before behind
    rw [mayPrecede_iff] at before behind
    exact eq_of_mem_operations (perm.mem_iff.mp member) (orderedPerm.mem_iff.mp otherMember) (by omega) (by omega)
  · rintro rfl
    exact areOrdered_orderedOperations plan

end Plan

theorem Disk.edit_rejected_iff (disk : Disk) (tree : FileTree) (doc : Document) (operations : List Operation) :
    disk.host.edit tree doc operations = .error (.rejected doc.path Failure.unordered) ↔
      Operation.areOrdered operations = false := by
  simp only [host, editDocument]
  by_cases ordered : Operation.areOrdered operations = true
  · by_cases writes : disk.writes = true
    · cases tree.write doc.path (doc.edited operations) <;> simp [ordered, writes]
    · simp [ordered, writes]
  · simp [ordered]

theorem Editor.Snapshot.edit_rejected_iff (snapshot : Snapshot) (tree : FileTree) (edits : Edits) (doc : Document)
    (operations : List Operation) :
    (snapshot.host tree).edit edits doc operations = .error (.rejected doc.path Failure.unordered) ↔
      Operation.areOrdered operations = false := by
  have reasons : Failure.notAbsolute ≠ Failure.unordered := by decide
  simp only [host, collect]
  by_cases ordered : Operation.areOrdered operations = true
  · cases Uri.ofPath? doc.path <;> simp [ordered, reasons]
  · simp [ordered]

namespace Plan

/-- The operations of a plan are in normal form, whatever its blocks and their stale ranges. The order of application is
a permutation of them, no other permutation passes the check of neighbours, and so each host refuses exactly the others
for their order. -/
theorem operations_have_one_order (plan : Plan) :
    NormalForm plan plan.operations ∧ plan.orderedOperations.Perm plan.operations ∧
      ∀ operations : List Operation, operations.Perm plan.operations →
        (Operation.areOrdered operations = true ↔ operations = plan.orderedOperations) ∧
        (∀ (disk : Disk) (tree : FileTree) (doc : Document),
          disk.host.edit tree doc operations = .error (.rejected doc.path Failure.unordered) ↔
            operations ≠ plan.orderedOperations) ∧
        ∀ (snapshot : Editor.Snapshot) (tree : FileTree) (edits : Editor.Edits) (doc : Document),
          (snapshot.host tree).edit edits doc operations = .error (.rejected doc.path Failure.unordered) ↔
            operations ≠ plan.orderedOperations := by
  refine ⟨operations_normalForm plan, Operation.order_perm plan.operations, fun operations perm => ?_⟩
  have only := areOrdered_iff_eq perm
  have others : Operation.areOrdered operations = false ↔ operations ≠ plan.orderedOperations := by
    rw [← Bool.not_eq_true, only]
  exact ⟨only, fun disk tree doc => (disk.edit_rejected_iff tree doc operations).trans others,
    fun snapshot tree edits doc => (snapshot.edit_rejected_iff tree edits doc operations).trans others⟩

/-- Two blocks on one line whose stale ranges overlap and reach past that line. -/
def overlappingRuns : Plan :=
  [{ occurrence := { kind := .get, args := [], offset := 0 }, line := 3, indent := []
     endpoints := [{ verb := "GET".toList, url := "u".toList }], stale := { start := 1, stop := 3 } },
   { occurrence := { kind := .put, args := [], offset := 0 }, line := 3, indent := []
     endpoints := [{ verb := "PUT".toList, url := "v".toList }], stale := { start := 2, stop := 4 } }]

/-- The insertion before the deletion that ends at the same line, which is the wrong way round. -/
def insertionFirst : List Operation :=
  [.insert 3 "// GET u\n// PUT v".toList, .delete { start := 1, stop := 4 }]

theorem overlappingRuns_one_order :
    insertionFirst.Perm overlappingRuns.operations ∧
      insertionFirst.reverse = overlappingRuns.orderedOperations ∧
      ∀ (disk : Disk) (tree : FileTree) (doc : Document),
        disk.host.edit tree doc insertionFirst = .error (.rejected doc.path Failure.unordered) := by
  have perm : insertionFirst.Perm overlappingRuns.operations := by decide +kernel
  obtain ⟨-, -, orders⟩ := operations_have_one_order overlappingRuns
  have ordered : insertionFirst.reverse = overlappingRuns.orderedOperations :=
    (orders insertionFirst.reverse (insertionFirst.reverse_perm.trans perm)).1.mp (by decide)
  refine ⟨perm, ordered, fun disk tree doc => ((orders insertionFirst perm).2.1 disk tree doc).mpr ?_⟩
  rw [← ordered]
  decide

end Plan

end RouteComments
