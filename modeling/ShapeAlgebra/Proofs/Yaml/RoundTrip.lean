import ShapeAlgebra.Proofs.Yaml.Filling
import ShapeAlgebra.Proofs.Yaml.Whole
import ShapeAlgebra.Yaml.Reader

/-!
# Documents read back from their YAML texts

A document whose keys are distinct is read back from the text in which it is written, with and
without the line break at its end, unless one of its keys or texts cannot be read back where it
stands or too many collections are inside one another.

Results:

* `Yaml.read_of_tokens`: what is read from the tokens of a document.
* `Yaml.read_write`: a document is read back from its text.
-/

namespace ShapeAlgebra.Yaml

theorem isAllowed_of_isOrdinary {c : Char} (h : IsOrdinary c) : isAllowed c = true := by
  rcases h with rfl | ⟨hlow, hhigh⟩
  · decide
  · have hlow : 0x20 ≤ c.toNat := hlow
    have hhigh : c.toNat ≤ 0x7E := hhigh
    simp [isAllowed, hlow, hhigh]

section

variable {cs : List Char} {d : Document}

/-- What is read from a text whose tokens are those of a graph that represents a document. -/
theorem read_of_represents {ns : Nodes} {root : Nat} (hcs : ∀ c ∈ cs, IsOrdinary c)
    (hgraph : Graph.ofTokens? (Tokens.ofChars cs) = .ok (some ⟨ns, root⟩))
    (hd : Represents ns root d) (hdistinct : d.HasDistinctKeys) : read cs = .ok d.toData := by
  have hallowed : cs.all isAllowed = true :=
    List.all_eq_true.2 fun c hc => isAllowed_of_isOrdinary (hcs c hc)
  simp only [read, hallowed, hgraph, bind, Except.bind]
  exact hd.toData_eq hdistinct

variable (hdistinct : d.HasDistinctKeys) (hkeeps : keepsNode 0 d = true)
  (hheight : d.height ≤ deepest)
include hdistinct hkeeps hheight

theorem read_body {final : List Char} (hfinal : final = [] ∨ final = ['\n']) :
    read (body d ++ endMark d ++ final) = .ok d.toData := by
  have hrest : ∀ t ∈ endTokens d, t = .documentEnd := by
    rw [endTokens]
    split
    · simp
    · exact fun t ht => absurd ht List.not_mem_nil
  obtain ⟨ns, hgraph, hd⟩ := exists_graph hrest hheight
  refine read_of_represents (fun c hc => ?_) ?_ hd hdistinct
  · rcases List.mem_append.1 hc with hc | hc
    · exact (isLines_body d).ordinary c hc
    · rcases hfinal with rfl | rfl
      · cases hc
      · exact .inl (List.mem_singleton.1 hc)
  · rw [Lexer.ofChars_body hkeeps hfinal]
    exact hgraph

/-- A document is read back from its text, and so it is from the text without the line breaks at its
end. -/
theorem read_write : read (write d) = .ok d.toData ∧
    read (withoutFinalBreaks (write d)) = .ok d.toData := by
  refine ⟨?_, ?_⟩
  · rw [write_eq]
    exact read_body hdistinct hkeeps hheight (.inr rfl)
  · rw [withoutFinalBreaks_write, ← List.append_nil (body d ++ endMark d)]
    exact read_body hdistinct hkeeps hheight (.inl rfl)

end

end ShapeAlgebra.Yaml
