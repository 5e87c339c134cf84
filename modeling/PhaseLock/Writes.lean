import PhaseLock.WriteBuffer

namespace PhaseLock
namespace Natives

-- The store a call's writes leave, each applied to it in turn.  A write of a key or a slice
-- that is not one throws, and changes nothing.
def applyWrite (kv : OrderedMap Key Bytes) : Write → OrderedMap Key Bytes
  | .set key value => if keyWritable key then kv.set key value else kv
  | .del key => if keyWritable key then kv.del key else kv
  | .deleteSlice slice _ => if sliceNameOk slice then kv.keep (fun key _ => !(slicePrefix slice).isPrefixOf key) else kv

def applyWrites (kv : OrderedMap Key Bytes) (ops : List Write) : OrderedMap Key Bytes := ops.foldl applyWrite kv

end Natives

theorem filter_all (o : Option β) : o.filter (fun _ => true) = o := by
  cases o <;> rfl

-- What a read sees through a buffer after one more write.
theorem WriteBuffer.read_write (wb : WriteBuffer) (kv : OrderedMap Key Bytes) (w : Write) (key : Key)
    (same : ∀ k, kv.get k = wb.read stored k) : (Natives.applyWrite kv w).get key = (wb.write w).read stored key := by
  cases w with
  | set k value =>
    by_cases writable : keyWritable k = true
    · simp only [Natives.applyWrite,write,if_pos writable,OrderedMap.get_set,same key]
      by_cases here : k = key
      · simp [read,put,here]
      · simp only [read,put,OrderedMap.get_set,if_neg here]
        rfl
    · simp only [Natives.applyWrite,write,if_neg writable,same key]
  | del k =>
    by_cases writable : keyWritable k = true
    · simp only [Natives.applyWrite,write,if_pos writable,OrderedMap.get_del,same key]
      by_cases here : k = key
      · simp [read,put,here]
      · simp only [read,put,OrderedMap.get_set,if_neg here]
        rfl
    · simp only [Natives.applyWrite,write,if_neg writable,same key]
  | deleteSlice slice erase =>
    by_cases named : sliceNameOk slice = true
    · simp only [Natives.applyWrite,write,if_pos named,OrderedMap.get_keep,same key]
      have plain := (sliceNameOk_plain named).1
      by_cases under : slicePrefix slice <+: key
      · have owned := (slicePrefix_iff plain key).mp under
        have starts : (slicePrefix slice).isPrefixOf key = true := List.isPrefixOf_iff_prefix.mpr under
        have gone : (wb.deleteSlice slice erase).deleted key = true := by
          simp [deleted,owned,deleteSlice,OrderedMap.has]
        have cleared : (wb.deleteSlice slice erase).entries.get key = none := by
          simp [deleteSlice,OrderedMap.get_keep,starts]
        simp [read,gone,cleared,starts]
      · have starts : (slicePrefix slice).isPrefixOf key = false := by
          rw [Bool.eq_false_iff]
          exact fun is => under (List.isPrefixOf_iff_prefix.mp is)
        have other : sliceOf key ≠ some slice := fun owned => under ((slicePrefix_iff plain key).mpr owned)
        have kept : (wb.deleteSlice slice erase).entries.get key = wb.entries.get key := by
          simp [deleteSlice,OrderedMap.get_keep,starts,filter_all]
        have stays : (wb.deleteSlice slice erase).deleted key = wb.deleted key := by
          unfold deleted
          cases owned : sliceOf key with
          | none => rfl
          | some s =>
            have apart : slice ≠ s := fun is => other (by rw [owned,is])
            simp [deleteSlice,OrderedMap.has,OrderedMap.get_set,apart]
        simp [read,kept,stays,starts,filter_all]
    · simp only [Natives.applyWrite,write,if_neg named,same key]

namespace Natives

-- Through its buffer a call sees the store its writes leave.
theorem applyWrites_get (kv : OrderedMap Key Bytes) (ops : List Write) (key : Key) :
    (applyWrites kv ops).get key = (WriteBuffer.writes ops).read kv.get key := by
  induction ops using List.reverseRecOn generalizing key with
  | nil =>
    have none : (WriteBuffer.writes []).deleted key = false := by
      unfold WriteBuffer.deleted
      cases sliceOf key <;> rfl
    simp [applyWrites,WriteBuffer.read,none,show (WriteBuffer.writes []).entries.get key = Option.none from rfl]
  | append_singleton ops w ih =>
    rw [applyWrites,WriteBuffer.writes,List.foldl_concat,List.foldl_concat]
    exact WriteBuffer.read_write _ _ w key ih

end Natives
end PhaseLock
