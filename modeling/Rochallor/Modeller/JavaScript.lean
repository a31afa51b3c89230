import Mathlib.Algebra.Order.BigOperators.Group.List
import Mathlib.Data.List.DropRight
import Mathlib.Data.List.Sort
import Rochallor.Data.MapOrder

/-! # JavaScript values

    What the modeller's code relies on in the language.  An object that
    `JSON.parse` returns has the last member of each name, and lists the names
    that are array indices first, in numeric order, and the others in the order
    of the text.
-/

namespace Rochallor.Modeller

/-! ## Objects -/

/-- A property of the object with these members. -/
def prop (members : GoMap Json) (name : String) : Option Json :=
  GoMap.last members name

/-- The number of a name that is an array index. -/
def arrayIndex (name : String) : Option Nat :=
  let n := name.toList.foldl (fun n c => 10 * n + (c.toNat - '0'.toNat)) 0
  if name.toList.all Char.isDigit && toString n == name && decide (n < 2 ^ 32 - 1) then some n
  else none

/-- `Object.entries`. -/
def entries {α : Type} (members : GoMap α) : GoMap α :=
  let object := GoMap.overlay [] members
  let indices := object.filter fun e => (arrayIndex e.1).isSome
  indices.insertionSort (fun a b => (arrayIndex a.1).getD 0 ≤ (arrayIndex b.1).getD 0) ++
    object.filter fun e => (arrayIndex e.1).isNone

/-- `Object.keys`. -/
def keys {α : Type} (members : GoMap α) : List String :=
  (entries members).map (·.1)

theorem mem_entries {α : Type} {members : GoMap α} {e : String × α} :
    e ∈ entries members ↔ GoMap.last members e.1 = some e.2 := by
  have hsplit : e ∈ entries members ↔ e ∈ GoMap.overlay [] members := by
    simp only [entries, List.mem_append, List.mem_insertionSort, List.mem_filter]
    cases arrayIndex e.1 <;> simp
  have hnodup : ((GoMap.overlay [] members).map (·.1)).Nodup := overlay_nodup (by simp)
  rw [hsplit]
  constructor
  · intro h
    have hget := GoMap.get_of_mem hnodup h
    rw [GoMap.get_overlay] at hget
    simpa [GoMap.get] using hget
  · intro h
    refine GoMap.mem_of_get ?_
    rw [GoMap.get_overlay, h]
    rfl

theorem entries_nodup {α : Type} (members : GoMap α) : ((entries members).map (·.1)).Nodup := by
  have hperm : (entries members).Perm (GoMap.overlay [] members) := by
    have hnone : (fun e : String × α => (arrayIndex e.1).isNone) =
        fun e => !(arrayIndex e.1).isSome := by
      funext e
      cases arrayIndex e.1 <;> rfl
    unfold entries
    rw [hnone]
    exact ((List.perm_insertionSort _ _).append_right _).trans (List.filter_append_perm _ _)
  exact (hperm.map _).nodup_iff.mpr (overlay_nodup (by simp))

/-! ## Strings -/

/-- White space and line terminators. -/
def whitespace (c : Char) : Bool :=
  ['\t', '\n', '\x0b', '\x0c', '\r', ' ', '\u00a0', '\u1680', '\u2028', '\u2029', '\u202f',
    '\u205f', '\u3000', '\ufeff'].contains c || ('\u2000' ≤ c && c ≤ '\u200a')

/-- `String.prototype.trim`. -/
def trim (s : String) : String :=
  String.ofList (((s.toList.dropWhile whitespace).reverse.dropWhile whitespace).reverse)

/-- A string that `trim` makes empty. -/
def blank (s : String) : Bool :=
  (trim s).isEmpty

theorem ne_empty_of_not_blank {s : String} (h : blank s = false) : s ≠ "" := by
  rintro rfl
  cases h

/-- `length`, in UTF-16 code units. -/
def utf16Length (s : String) : Nat :=
  (s.toList.map fun c => if c.val < 0x10000 then 1 else 2).sum

theorem toList_trim (s : String) :
    (trim s).toList = (s.toList.dropWhile whitespace).rdropWhile whitespace :=
  String.toList_ofList

theorem trim_trim (s : String) : trim (trim s) = trim s := by
  have hstart := List.rdropWhile_prefix whitespace (l := s.toList.dropWhile whitespace)
  -- no white space is left in front, since what is cut is at the end
  have hfront : ((s.toList.dropWhile whitespace).rdropWhile whitespace).dropWhile whitespace =
      (s.toList.dropWhile whitespace).rdropWhile whitespace := by
    refine List.dropWhile_eq_self_iff.mpr fun hpos => ?_
    rw [hstart.getElem hpos]
    exact List.dropWhile_get_zero_not whitespace s.toList _
  refine String.toList_injective ?_
  rw [toList_trim, toList_trim, hfront, List.rdropWhile_idempotent]

theorem utf16Length_trim_le (s : String) : utf16Length (trim s) ≤ utf16Length s := by
  have hsub : (trim s).toList.Sublist s.toList := by
    rw [toList_trim]
    exact (List.rdropWhile_prefix whitespace _).sublist.trans (List.dropWhile_sublist _)
  exact (hsub.map _).sum_le_sum fun _ _ => Nat.zero_le _

/-- An ASCII text has as many code units as characters. -/
theorem utf16Length_ascii {s : String} (h : ∀ c ∈ s.toList, c.toNat < 128) :
    utf16Length s = s.toList.length := by
  unfold utf16Length
  generalize s.toList = cs at h ⊢
  induction cs with
  | nil => rfl
  | cons c rest ih =>
    obtain ⟨hc, hrest⟩ := List.forall_mem_cons.mp h
    have hval : c.val < 0x10000 := by
      rw [UInt32.lt_iff_toNat_lt]
      exact Nat.lt_trans hc (by decide)
    rw [List.map_cons, List.sum_cons, if_pos hval, ih hrest, List.length_cons, Nat.add_comm]

theorem utf8ByteSize_ascii {s : String} (h : ∀ c ∈ s.toList, c.toNat < 128) :
    s.utf8ByteSize = s.toList.length := by
  have hsize : ∀ cs : List Char, (∀ c ∈ cs, c.toNat < 128) →
      (String.ofList cs).utf8ByteSize = cs.length := by
    intro cs
    induction cs with
    | nil => exact fun _ => rfl
    | cons c rest ih =>
      intro hcs
      obtain ⟨hc, hrest⟩ := List.forall_mem_cons.mp hcs
      have hone : c.utf8Size = 1 := by
        rw [Char.utf8Size_eq_one_iff, UInt32.le_iff_toNat_le]
        exact Nat.le_of_lt_succ hc
      rw [← List.singleton_append, String.ofList_append, String.utf8ByteSize_append, ih hrest,
        show String.ofList [c] = String.singleton c from rfl, String.utf8ByteSize_singleton, hone,
        List.length_append, List.length_singleton]
  rw [← hsize s.toList h, String.ofList_toList]

end Rochallor.Modeller
