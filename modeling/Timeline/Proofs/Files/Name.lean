import Timeline.Files.Name
import Timeline.Proofs.Text.Pieces

/-! # The name of a name

The name of a document is a single part of a path, so it is its own name.
-/

namespace Timeline

namespace FileName

theorem last_mem_parts {path : List Char} (h : last path ≠ []) : last path ∈ parts path := by
  unfold last at h ⊢
  cases hlast : (parts path).getLast? with
  | none => exact absurd (by rw [hlast]; rfl) h
  | some part => exact List.mem_of_getLast? hlast

theorem last_last (path : List Char) (h : last (withSlashes path) ≠ []) :
    last (withSlashes (last (withSlashes path))) = last (withSlashes path) := by
  generalize hname : last (withSlashes path) = name at h ⊢
  have hpart : name ∈ parts (withSlashes path) := hname ▸ last_mem_parts (hname ▸ h)
  obtain ⟨hpiece, hkept⟩ := List.mem_filter.mp hpart
  have hplain : ∀ c ∈ name, c ≠ '\\' ∧ c ≠ '/' := by
    intro c hc
    obtain ⟨hmem, hslash⟩ := Text.mem_of_mem_splitAt hpiece hc
    obtain ⟨d, -, rfl⟩ := List.mem_map.mp hmem
    refine ⟨?_, hslash⟩
    split
    · decide
    · assumption
  have hslashes : withSlashes name = name := by
    refine (List.map_congr_left fun c hc => ?_).trans (List.map_id name)
    exact if_neg (hplain c hc).1
  have hsplit : Text.splitAt '/' name = [name] :=
    Text.splitAt_of_notMem fun hmem => (hplain _ hmem).2 rfl
  have hparts : parts name = [name] := by
    rw [parts, hsplit]
    exact List.filter_cons_of_pos hkept
  rw [hslashes, last, hparts]
  rfl

theorem ofPath_ofPath (path : String) : ofPath (ofPath path) = ofPath path := by
  cases hlast : last (withSlashes path.toList) with
  | nil =>
    have hpath : ofPath path = path := by rw [ofPath, hlast]
    rw [hpath, hpath]
  | cons c cs =>
    have hpath : ofPath path = String.ofList (c :: cs) := by rw [ofPath, hlast]
    have hagain : last (withSlashes (c :: cs)) = c :: cs := by
      have h := last_last path.toList (by simp [hlast])
      rwa [hlast] at h
    rw [hpath, ofPath, String.toList_ofList, hagain]

theorem ofPath_ne_empty {path : String} (h : path ≠ "") : ofPath path ≠ "" := by
  unfold ofPath
  split
  · exact h
  · rename_i hname
    simpa using hname

end FileName

end Timeline
