import DgcRestApi.Kit.Versions
import Mathlib.Data.List.Dedup
import Mathlib.Data.List.Pairwise

/-!
# Histories of a versioned table

What a table holds after any number of writes. Of the writes of one key under one number
only the first is stored, and the versions are the spans of the stored ones. They cover what
was valid at a number only while there are at most two, since the last write ends all others.
-/

namespace Versions

variable {β κ : Type} [DecidableEq κ] {key : β → κ} {top : Nat}

variable (key top) in
/-- The table after the writes, in order. -/
def puts (writes : List (Nat × β)) : List (Version β) :=
  writes.foldl (fun table w => put key top w.2 w.1 table) []

variable (key) in
def writesOf (i : κ) (writes : List (Nat × β)) : List (Nat × β) :=
  writes.filter fun w => key w.2 = i

/-- Of successive writes under one number the first. -/
def stored (writes : List (Nat × β)) : List (Nat × β) :=
  writes.foldl (fun acc w => if acc.getLast?.map Prod.fst = some w.1 then acc else acc ++ [w]) []

/-- The last write at or before a number. -/
def lastAt (writes : List (Nat × β)) (n : Nat) : Option (Nat × β) :=
  writes.reverse.find? fun w => w.1 ≤ n

def Increasing (writes : List (Nat × β)) : Prop := writes.Pairwise fun u w => u.1 < w.1

def NonDecreasing (writes : List (Nat × β)) : Prop := writes.Pairwise fun u w => u.1 ≤ w.1

variable {writes : List (Nat × β)} {w : Nat × β} {i : κ} {n : Nat}

/-! ## Stored writes -/

theorem stored_snoc (writes : List (Nat × β)) (w : Nat × β) : stored (writes ++ [w]) =
    if (stored writes).getLast?.map Prod.fst = some w.1 then stored writes
    else stored writes ++ [w] := by
  rw [stored,List.foldl_append]
  rfl

theorem puts_snoc (writes : List (Nat × β)) (w : Nat × β) :
    puts key top (writes ++ [w]) = put key top w.2 w.1 (puts key top writes) := by
  rw [puts,List.foldl_append]
  rfl

theorem mem_stored (h : w ∈ stored writes) : w ∈ writes := by
  induction writes using List.reverseRecOn with
  | nil => exact h
  | append_singleton writes u ih =>
    rw [stored_snoc] at h
    split at h
    · exact List.mem_append_left _ (ih h)
    · rcases List.mem_append.mp h with h | h
      · exact List.mem_append_left _ (ih h)
      · exact List.mem_append_right _ h

/-- A write opens a new version unless the last stored one has its number. -/
theorem renew_stored (hlt : ∀ w ∈ writes, w.1 < top) (w : Nat × β) :
    renew top w.2 w.1 (spans top (stored writes)) = spans top (stored (writes ++ [w])) := by
  rw [stored_snoc]
  rcases List.eq_nil_or_concat (stored writes) with hnil | ⟨old,u,hold⟩
  · rw [hnil]
    rfl
  · rw [List.concat_eq_append] at hold
    have hu : u.1 < top := hlt u (mem_stored (hold ▸ by simp))
    rw [hold,renew,List.getLast?_concat,Option.map_some]
    by_cases hw : w.1 = u.1
    · rw [if_pos ((current_spans hu).mpr hw),if_pos (congrArg some hw.symm)]
    · rw [if_neg fun h => hw ((current_spans hu).mp h),
        if_neg fun h => hw (Option.some.inj h).symm,spans_snoc (old ++ [u])]

theorem writesOf_snoc (writes : List (Nat × β)) (w : Nat × β) :
    writesOf key (key w.2) (writes ++ [w]) = writesOf key (key w.2) writes ++ [w] := by
  simp [writesOf]

theorem writesOf_snoc_ne (hi : key w.2 ≠ i) :
    writesOf key i (writes ++ [w]) = writesOf key i writes := by
  simp [writesOf,hi]

theorem slice_puts (hlt : ∀ w ∈ writes, w.1 < top) (i : κ) :
    slice key i (puts key top writes) = spans top (stored (writesOf key i writes)) := by
  induction writes using List.reverseRecOn with
  | nil => rfl
  | append_singleton writes w ih =>
    have hlt' : ∀ u ∈ writes, u.1 < top := fun u hu => hlt u (List.mem_append_left _ hu)
    rw [puts_snoc]
    by_cases hi : key w.2 = i
    · subst hi
      have hlt₁ : ∀ u ∈ writesOf key (key w.2) writes, u.1 < top := fun u hu =>
        hlt' u (List.mem_of_mem_filter hu)
      rw [slice_put,ih hlt',writesOf_snoc,renew_stored hlt₁]
    · rw [slice_put_ne hi,ih hlt',writesOf_snoc_ne hi]

/-- The numbers of the writes are those of the stored ones. -/
theorem stored_numbers (n : Nat) : (∃ w ∈ stored writes, w.1 = n) ↔ ∃ w ∈ writes, w.1 = n := by
  refine ⟨fun ⟨w,hw,hn⟩ => ⟨w,mem_stored hw,hn⟩,?_⟩
  induction writes using List.reverseRecOn with
  | nil => exact id
  | append_singleton writes u ih =>
    rintro ⟨w,hw,rfl⟩
    rw [stored_snoc]
    rcases List.mem_append.mp hw with hw | hw
    · obtain ⟨v,hv,hvw⟩ := ih ⟨w,hw,rfl⟩
      split
      · exact ⟨v,hv,hvw⟩
      · exact ⟨v,List.mem_append_left _ hv,hvw⟩
    · obtain rfl := List.mem_singleton.mp hw
      split
      · next hlast =>
        obtain ⟨v,hv,hvw⟩ := Option.map_eq_some_iff.mp hlast
        exact ⟨v,List.mem_of_getLast? hv,hvw⟩
      · exact ⟨w,by simp,rfl⟩

/-- The stored write of a number is the first one. -/
theorem stored_first (n : Nat) :
    (stored writes).find? (fun w => w.1 = n) = writes.find? fun w => w.1 = n := by
  induction writes using List.reverseRecOn with
  | nil => rfl
  | append_singleton writes u ih =>
    rw [stored_snoc,List.find?_append,← ih]
    split
    · next hlast =>
      obtain ⟨v,hv,hvu⟩ := Option.map_eq_some_iff.mp hlast
      cases hfind : (stored writes).find? fun w => w.1 = n with
      | some w => rfl
      | none =>
        -- the number of `u` is stored already, so it is not the one looked for
        have hne := List.find?_eq_none.mp hfind v (List.mem_of_getLast? hv)
        rw [hvu] at hne
        simp only [Option.none_or,List.find?_cons,hne]
        rfl
    · rw [List.find?_append]

theorem stored_last (hmono : NonDecreasing writes) :
    Increasing (stored writes) ∧ ∀ w ∈ writes, ∃ u, (stored writes).getLast? = some u ∧
      w.1 ≤ u.1 := by
  induction writes using List.reverseRecOn with
  | nil => exact ⟨.nil,List.forall_mem_nil _⟩
  | append_singleton writes v ih =>
    obtain ⟨hmono',_,hv⟩ := List.pairwise_append.mp hmono
    obtain ⟨hinc,hlast⟩ := ih hmono'
    rw [stored_snoc]
    split
    · next hsame =>
      obtain ⟨u,hu,huv⟩ := Option.map_eq_some_iff.mp hsame
      refine ⟨hinc,fun w hw => ⟨u,hu,?_⟩⟩
      rcases List.mem_append.mp hw with hw | hw
      · exact huv ▸ hv w hw v (List.mem_singleton_self v)
      · exact Nat.le_of_eq ((congrArg Prod.fst (List.mem_singleton.mp hw)).trans huv.symm)
    · next hother =>
      refine ⟨List.pairwise_append.mpr ⟨hinc,List.pairwise_singleton _ _,fun w hw v' hv' => ?_⟩,
        fun w hw => ⟨v,by simp,?_⟩⟩
      · obtain rfl := List.mem_singleton.mp hv'
        -- the last stored number is the greatest, and it is not that of `v`
        obtain ⟨u,hu,hwu⟩ := hlast w (mem_stored hw)
        have huv := hv u (mem_stored (List.mem_of_getLast? hu)) _ (List.mem_singleton_self _)
        have hne : u.1 ≠ v'.1 := fun he => hother (by rw [hu,Option.map_some,he])
        omega
      · rcases List.mem_append.mp hw with hw | hw
        · exact hv w hw v (List.mem_singleton_self v)
        · exact Nat.le_of_eq (congrArg Prod.fst (List.mem_singleton.mp hw))

theorem increasing_stored (hmono : NonDecreasing writes) : Increasing (stored writes) :=
  (stored_last hmono).1

/-- As many writes are stored as there are different numbers. -/
theorem length_stored (hmono : NonDecreasing writes) :
    (stored writes).length = (writes.map Prod.fst).dedup.length := by
  have hnodup : ((stored writes).map Prod.fst).Nodup :=
    List.pairwise_map.mpr ((increasing_stored hmono).imp fun h => Nat.ne_of_lt h)
  have hperm : ((stored writes).map Prod.fst).Perm (writes.map Prod.fst).dedup := by
    refine (List.perm_ext_iff_of_nodup hnodup (List.nodup_dedup _)).mpr fun n => ?_
    rw [List.mem_dedup,List.mem_map,List.mem_map]
    exact stored_numbers n
  rw [← hperm.length_eq,List.length_map]

theorem stored_append {old new : List (Nat × β)} (h : ∀ u ∈ old, ∀ w ∈ new, u.1 ≠ w.1) :
    stored (old ++ new) = stored old ++ stored new := by
  induction new using List.reverseRecOn with
  | nil => simp [stored]
  | append_singleton new w ih =>
    have hold : (stored old).getLast?.map Prod.fst ≠ some w.1 := by
      intro hlast
      obtain ⟨u,hu,huw⟩ := Option.map_eq_some_iff.mp hlast
      exact h u (mem_stored (List.mem_of_getLast? hu)) w (by simp) huw
    rw [← List.append_assoc,stored_snoc,stored_snoc,
      ih fun u hu w hw => h u hu w (List.mem_append_left _ hw)]
    rcases List.eq_nil_or_concat (stored new) with hnil | ⟨rest,u,hrest⟩
    · rw [hnil,List.append_nil,if_neg hold]
      rfl
    · rw [List.concat_eq_append] at hrest
      rw [hrest,← List.append_assoc,List.getLast?_concat,List.getLast?_concat]
      split
      · exact List.append_assoc ..
      · simp only [List.append_assoc]

/-- A list in order of `f` is what is below a number, then the rest. -/
theorem filter_lt_append {α : Type} {f : α → Nat} {l : List α}
    (h : l.Pairwise fun a b => f a < f b) (n : Nat) :
    l.filter (fun a => f a < n) ++ l.filter (fun a => n ≤ f a) = l := by
  induction l with
  | nil => rfl
  | cons a l ih =>
    obtain ⟨ha,hl⟩ := List.pairwise_cons.mp h
    by_cases hn : f a < n
    · rw [List.filter_cons_of_pos (by simpa using hn),List.filter_cons_of_neg (by simpa using hn),
        List.cons_append,ih hl]
    · have hge : n ≤ f a := Nat.le_of_not_lt hn
      have hnone : l.filter (fun a => f a < n) = [] :=
        List.filter_eq_nil_iff.mpr fun b hb => by
          have := ha b hb
          simp only [decide_eq_true_eq]
          omega
      have hall : l.filter (fun a => n ≤ f a) = l := List.filter_eq_self.mpr fun b hb => by
        have := ha b hb
        simp only [decide_eq_true_eq]
        omega
      rw [List.filter_cons_of_neg (by simpa using hge),List.filter_cons_of_pos (by simpa using hge),
        hnone,hall,List.nil_append]

/-- A table is known, up to order, by the versions of each key. -/
theorem perm_of_slices {l m : List (Version β)} (h : ∀ i, slice key i l = slice key i m) :
    l.Perm m := by
  classical
  refine List.perm_iff_count.mpr fun v => ?_
  have hcount : ∀ l : List (Version β), (slice key (key v.body) l).count v = l.count v := fun l =>
    List.count_filter (by simp)
  rw [← hcount l,← hcount m,h]

/-! ## The last write at a number -/

theorem lastAt_some (h : lastAt writes n = some w) : w ∈ writes ∧ w.1 ≤ n := by
  refine ⟨List.mem_reverse.mp (List.mem_of_find?_eq_some h),?_⟩
  simpa using List.find?_some h

theorem lastAt_greatest (hmono : NonDecreasing writes) (h : lastAt writes n = some w) :
    ∀ u ∈ writes, u.1 ≤ n → u.1 ≤ w.1 := by
  intro u hu hun
  obtain ⟨_,older,newer,hrev,hnewer⟩ := List.find?_eq_some_iff_append.mp h
  have hdesc : writes.reverse.Pairwise fun u w => w.1 ≤ u.1 := List.pairwise_reverse.mpr hmono
  rw [hrev] at hdesc
  rcases List.mem_append.mp (hrev ▸ List.mem_reverse.mpr hu) with hu | hu
  · exact absurd hun (by simpa using hnewer u hu)
  · rcases List.mem_cons.mp hu with rfl | hu
    · exact Nat.le_refl _
    · exact (List.pairwise_cons.mp (List.pairwise_append.mp hdesc).2.1).1 u hu

theorem lastAt_of_mem (hw : w ∈ writes) (hn : w.1 ≤ n) : ∃ u, lastAt writes n = some u := by
  rw [← Option.isSome_iff_exists,lastAt,List.find?_isSome]
  exact ⟨w,List.mem_reverse.mpr hw,by simpa using hn⟩

/-- The last write at or before a number is the last one under its own number. -/
theorem lastAt_last (h : lastAt writes n = some w) :
    writes.reverse.find? (fun u => u.1 = w.1) = some w := by
  obtain ⟨_,older,newer,hrev,hnewer⟩ := List.find?_eq_some_iff_append.mp h
  have hn := (lastAt_some h).2
  refine List.find?_eq_some_iff_append.mpr ⟨by simp,older,newer,hrev,fun u hu => ?_⟩
  have hnu := hnewer u hu
  simp only [Bool.not_eq_eq_eq_not,Bool.not_true,decide_eq_false_iff_not,Nat.not_le] at hnu ⊢
  omega

/-- Under increasing numbers there is one write for each. -/
theorem lastAt_only (hinc : Increasing writes) (h : lastAt writes n = some w) :
    writes.find? (fun u => u.1 = w.1) = some w := by
  obtain ⟨older,newer,hsplit⟩ := List.append_of_mem (lastAt_some h).1
  rw [hsplit] at hinc ⊢
  refine List.find?_eq_some_iff_append.mpr ⟨by simp,older,newer,rfl,fun u hu => ?_⟩
  have := (List.pairwise_append.mp hinc).2.2 u hu w List.mem_cons_self
  simpa using Nat.ne_of_lt this

/-! ## What the versions cover -/

/-- A query at `n` finds the version valid. -/
def Version.Covers (v : Version β) (n : Nat) : Prop := v.startNum ≤ n ∧ n < v.endNum

/-- The versions of one key are what they are meant to be: they do not overlap, one at most is
open, and the one that covers a number has what was written `last`. -/
structure Chronicle (top : Nat) (writes : List (Nat × β)) (last : Nat → Option (Nat × β))
    (vs : List (Version β)) : Prop where
  disjoint : vs.Pairwise fun v u => ∀ n, ¬(v.Covers n ∧ u.Covers n)
  one_open : (opened top vs).length ≤ 1
  covered : ∀ w ∈ writes, ∀ n, w.1 ≤ n → n < top →
    ∃ v ∈ vs, v.Covers n ∧ (last n).map Prod.snd = some v.body

theorem one_open_spans (hlt : ∀ w ∈ writes, w.1 < top) :
    (opened top (spans top writes)).length ≤ 1 := by
  rcases List.eq_nil_or_concat writes with rfl | ⟨old,w,rfl⟩
  · exact Nat.zero_le 1
  · rw [List.concat_eq_append] at hlt ⊢
    rw [opened_spans (hlt w (by simp))]
    exact Nat.le_refl 1

/-- The versions overlap from the third write on. -/
theorem disjoint_spans_iff (hinc : Increasing writes) :
    ((spans top writes).Pairwise fun v u => ∀ n, ¬(v.Covers n ∧ u.Covers n)) ↔
      writes.length ≤ 2 := by
  match writes with
  | [] => exact iff_of_true .nil (Nat.zero_le 2)
  | [u] => exact iff_of_true (List.pairwise_singleton _ _) (Nat.le_succ 1)
  | [u,w] =>
    refine iff_of_true (List.pairwise_pair.mpr fun n h => ?_) (by simp)
    have hu : n < w.1 := h.1.2
    have hw : w.1 ≤ n := h.2.1
    omega
  | u :: v :: w :: rest =>
    refine iff_of_false (fun hdisj => ?_) (by simp)
    obtain ⟨hu,hv,_⟩ := List.pairwise_cons.mp hinc |>.imp_right List.pairwise_cons.mp
    -- the last write ends both of the first two
    obtain ⟨mid,z,hz⟩ : ∃ mid z, w :: rest = mid ++ [z] :=
      ⟨_,_,(List.dropLast_append_getLast (List.cons_ne_nil w rest)).symm⟩
    rw [hz,← List.cons_append,← List.cons_append,spans_last] at hdisj
    have hvz : v.1 < z.1 := hv z (hz ▸ by simp)
    have huv : u.1 < v.1 := hu v List.mem_cons_self
    have hpair := (List.pairwise_cons.mp hdisj).1 ⟨v.2,v.1,z.1⟩ (by simp) v.1
    exact hpair ⟨⟨Nat.le_of_lt huv,hvz⟩,Nat.le_refl _,hvz⟩

/-- Up to two writes cover every number with the last one at or before it. -/
theorem covered_spans (hinc : Increasing writes) (hlen : writes.length ≤ 2)
    (h : lastAt writes n = some w) (htop : n < top) :
    ∃ v ∈ spans top writes, v.Covers n ∧ (v.startNum,v.body) = w := by
  obtain ⟨hw,hwn⟩ := lastAt_some h
  have hlast := lastAt_greatest (hinc.imp Nat.le_of_lt) h
  match writes with
  | [u] =>
    obtain rfl := List.mem_singleton.mp hw
    exact ⟨⟨w.2,w.1,top⟩,List.mem_singleton_self _,⟨hwn,htop⟩,rfl⟩
  | [u,z] =>
    have huz : u.1 < z.1 := (List.pairwise_cons.mp hinc).1 z (List.mem_singleton_self z)
    rcases List.mem_pair.mp hw with rfl | rfl
    · refine ⟨⟨w.2,w.1,z.1⟩,List.mem_cons_self,⟨hwn,?_⟩,rfl⟩
      by_contra hzn
      have := hlast z (by simp) (Nat.le_of_not_lt hzn)
      omega
    · exact ⟨⟨w.2,w.1,top⟩,by simp [spans,close],⟨hwn,htop⟩,rfl⟩
  | _ :: _ :: _ :: _ => simp at hlen

theorem unique_cover {vs : List (Version β)}
    (hdisj : vs.Pairwise fun v u => ∀ n, ¬(v.Covers n ∧ u.Covers n)) {v u : Version β}
    (hv : v ∈ vs) (hu : u ∈ vs) (hvn : v.Covers n) (hun : u.Covers n) : v = u := by
  by_contra hne
  have hsymm : Std.Symm fun v u : Version β => ∀ n, ¬(v.Covers n ∧ u.Covers n) :=
    ⟨fun v u h n hboth => h n hboth.symm⟩
  exact List.Pairwise.forall hdisj hv hu hne n ⟨hvn,hun⟩

/-! ## Rewinding -/

section Rewind

variable {old new : List (Nat × β)}

/-- A key that is not written from `n` on is left as it is. -/
theorem rewind_old (hold : ∀ w ∈ old, w.1 < n) :
    rewind top n (spans top old) = spans top old := by
  have hstart : (spans top old).filter (fun v => v.startNum < n) = spans top old :=
    List.filter_eq_self.mpr fun v hv => by simpa using hold _ (mem_spans hv)
  rw [rewind,hstart]
  refine (List.map_congr_left fun v hv => ?_).trans (List.map_id _)
  split
  · next hend =>
    rcases List.eq_nil_or_concat old with rfl | ⟨rest,w,rfl⟩
    · exact absurd hv List.not_mem_nil
    · rw [List.concat_eq_append] at hold hv
      rw [spans_last] at hv
      rcases List.mem_append.mp hv with hv | hv
      · -- an older version ends at the last write, before `n`
        obtain ⟨u,_,rfl⟩ := List.mem_map.mp hv
        have := hold w (by simp)
        exact absurd hend (Nat.not_le_of_lt this)
      · rw [List.mem_singleton.mp hv]
        rfl
  · rfl

/-- A key that is written from `n` on gets all older versions back. -/
theorem rewind_new (hold : ∀ w ∈ old, w.1 < n) (hnew : ∀ w ∈ new, n ≤ w.1) (hne : new ≠ []) :
    rewind top n (spans top (old ++ new)) = old.map fun w => ⟨w.2,w.1,top⟩ := by
  obtain ⟨rest,w,hrest⟩ : ∃ rest w, new = rest ++ [w] :=
    ⟨_,_,(List.dropLast_append_getLast hne).symm⟩
  have hw : n ≤ w.1 := hnew w (hrest ▸ by simp)
  have hfilter : (spans top (old ++ new)).filter (fun v => v.startNum < n) =
      old.map fun u => (⟨u.2,u.1,w.1⟩ : Version β) := by
    have holds : (old.map fun u => (⟨u.2,u.1,w.1⟩ : Version β)).filter (fun v => v.startNum < n) =
        old.map fun u => ⟨u.2,u.1,w.1⟩ := by
      refine List.filter_eq_self.mpr fun v hv => ?_
      obtain ⟨u,hu,rfl⟩ := List.mem_map.mp hv
      simpa using hold u hu
    have hnone : (rest.map fun u => (⟨u.2,u.1,w.1⟩ : Version β)).filter (fun v => v.startNum < n) =
        [] := by
      refine List.filter_eq_nil_iff.mpr fun v hv => ?_
      obtain ⟨u,hu,rfl⟩ := List.mem_map.mp hv
      simpa using hnew u (hrest ▸ List.mem_append_left _ hu)
    rw [hrest,← List.append_assoc,spans_last,List.map_append,List.filter_append,List.filter_append,
      holds,hnone]
    simp [hw]
  rw [rewind,hfilter,List.map_map]
  refine List.map_congr_left fun u _ => ?_
  simp [hw]

theorem visible_all (hold : ∀ w ∈ old, w.1 ≤ n) (htop : n < top) :
    visible n (old.map fun w => (⟨w.2,w.1,top⟩ : Version β)) = old.map fun w => ⟨w.2,w.1,top⟩ := by
  refine List.filter_eq_self.mpr fun v hv => ?_
  obtain ⟨w,hw,rfl⟩ := List.mem_map.mp hv
  simpa using ⟨hold w hw,htop⟩

end Rewind

/-- Under every number the last write is the first one again. -/
def Agreeing (writes : List (Nat × β)) : Prop := ∀ n,
  (writes.reverse.find? fun w => w.1 = n).map Prod.snd =
    (writes.find? fun w => w.1 = n).map Prod.snd

section Histories

variable (hmono : NonDecreasing writes) (hlt : ∀ w ∈ writes, w.1 < top)
include hmono

/-- The stored write that is valid at a number, and the last write there. -/
theorem lastAt_stored (h : lastAt writes n = some w) : ∃ u, lastAt (stored writes) n = some u ∧
    u.1 = w.1 ∧ writes.find? (fun v => v.1 = w.1) = some u := by
  obtain ⟨hw,hwn⟩ := lastAt_some h
  obtain ⟨u₀,hu₀,hn₀⟩ := (stored_numbers w.1).mpr ⟨w,hw,rfl⟩
  obtain ⟨u,hu⟩ := lastAt_of_mem hu₀ (hn₀ ▸ hwn)
  have hinc := increasing_stored hmono
  obtain ⟨humem,hun⟩ := lastAt_some hu
  have hge := lastAt_greatest (hinc.imp Nat.le_of_lt) hu u₀ hu₀ (hn₀ ▸ hwn)
  have hle := lastAt_greatest hmono h u (mem_stored humem) hun
  have heq : u.1 = w.1 := by omega
  exact ⟨u,hu,heq,by rw [← stored_first,← heq,lastAt_only hinc hu]⟩

include hlt

/-- Read by the writes that were stored, the versions are right up to two numbers. -/
theorem chronicle_stored_iff :
    Chronicle top writes (lastAt (stored writes)) (spans top (stored writes)) ↔
      (writes.map Prod.fst).dedup.length ≤ 2 := by
  have hinc := increasing_stored hmono
  rw [← length_stored hmono]
  constructor
  · exact fun h => (disjoint_spans_iff hinc).mp h.disjoint
  · intro hlen
    refine ⟨(disjoint_spans_iff hinc).mpr hlen,one_open_spans fun w hw => hlt w (mem_stored hw),
      fun w hw n hwn hn => ?_⟩
    obtain ⟨u₀,hu₀,hn₀⟩ := (stored_numbers w.1).mpr ⟨w,hw,rfl⟩
    obtain ⟨u,hu⟩ := lastAt_of_mem hu₀ (hn₀ ▸ hwn)
    obtain ⟨v,hv,hcover,he⟩ := covered_spans hinc hlen hu hn
    exact ⟨v,hv,hcover,by rw [hu,← he]; rfl⟩

/-- The version that covers a number is that of its first write, and shows the last one. -/
theorem Chronicle.agreeing (h : Chronicle top writes (lastAt writes) (spans top (stored writes)))
    (hlen : (stored writes).length ≤ 2) : Agreeing writes := by
  intro n
  cases hfirst : writes.find? fun w => w.1 = n with
  | none =>
    have hnone : writes.reverse.find? (fun w => w.1 = n) = none :=
      List.find?_eq_none.mpr fun w hw => List.find?_eq_none.mp hfirst w (List.mem_reverse.mp hw)
    rw [hnone]
  | some u =>
    have hmem : u ∈ writes := List.mem_of_find?_eq_some hfirst
    have hun : u.1 = n := by simpa using List.find?_some hfirst
    obtain ⟨w,hw⟩ := lastAt_of_mem hmem (Nat.le_of_eq hun)
    have hge := lastAt_greatest hmono hw u hmem (Nat.le_of_eq hun)
    have hwn : w.1 = n := Nat.le_antisymm (lastAt_some hw).2 (hun ▸ hge)
    have hn : n < top := hun ▸ hlt u hmem
    obtain ⟨u',hu',_,hfirst'⟩ := lastAt_stored hmono hw
    rw [hwn,hfirst] at hfirst'
    obtain rfl := Option.some.inj hfirst'
    obtain ⟨v,hv,hcover,he⟩ := covered_spans (increasing_stored hmono) hlen hu' hn
    obtain ⟨v',hv',hcover',hlast⟩ := h.covered u hmem n (Nat.le_of_eq hun) hn
    obtain rfl := unique_cover h.disjoint hv hv' hcover hcover'
    have hlast' := lastAt_last hw
    rw [hwn] at hlast'
    rw [hlast',Option.map_some,Option.map_some,← he]
    rw [hw,Option.map_some] at hlast
    exact hlast

/-- Read by all writes, those of one number must besides agree. -/
theorem chronicle_iff : Chronicle top writes (lastAt writes) (spans top (stored writes)) ↔
    (writes.map Prod.fst).dedup.length ≤ 2 ∧ Agreeing writes := by
  have hinc := increasing_stored hmono
  rw [← length_stored hmono]
  constructor
  · intro h
    have hlen := (disjoint_spans_iff hinc).mp h.disjoint
    exact ⟨hlen,h.agreeing hmono hlt hlen⟩
  · rintro ⟨hlen,hagree⟩
    refine ⟨(disjoint_spans_iff hinc).mpr hlen,one_open_spans fun w hw => hlt w (mem_stored hw),
      fun w hw n hwn hn => ?_⟩
    obtain ⟨z,hz⟩ := lastAt_of_mem hw hwn
    obtain ⟨u,hu,huz,hfirst⟩ := lastAt_stored hmono hz
    obtain ⟨v,hv,hcover,he⟩ := covered_spans hinc hlen hu hn
    have hsame := hagree z.1
    rw [lastAt_last hz,hfirst,Option.map_some,Option.map_some,← he] at hsame
    exact ⟨v,hv,hcover,by rw [hz]; exact hsame⟩

end Histories

end Versions
