import LegalRag.Llm.Transparent
import LegalRag.Retrieval.Pipeline

/-!
# What the cache keys are hashes of

`make_key` puts a bar after every part and says neither how long a part is nor whether it is a string or
JSON, so two lists of parts can make the same bytes.  The parts of one call site cannot
(`keyBytes_injective`):

* a completion has two JSON values at its end, and the text of a value has bars only inside its strings,
so its bytes are cut from the right;
* an embedding, a rewrite and a rerank begin with the name of a model, which has no bar, so their bytes
are cut at the first one; what is left of a rerank is a query and a JSON value, cut from the right again.
-/

namespace LegalRag

open Json

/-- The bytes that are hashed. -/
def keyBytes (parts : List KeyPart) : ByteArray := (keyText parts).toUTF8

/-- A name without a bar. -/
def Plain (name : String) : Prop := '|' ∉ name.toList

instance (name : String) : Decidable (Plain name) := inferInstanceAs (Decidable ('|' ∉ name.toList))

private theorem keyText_of_keyBytes {ps qs : List KeyPart} (h : keyBytes ps = keyBytes qs) :
    keyText ps = keyText qs := by
  simpa [keyBytes, String.toByteArray_inj] using h

/-- A name and a text, as an embedding and a rewrite have them. -/
private theorem keyBytes_pair {m m' t t' : String} (hm : Plain m) (hm' : Plain m')
    (h : keyBytes [.text m, .text t] = keyBytes [.text m', .text t']) : m = m' ∧ t = t' := by
  have htext := keyText_of_keyBytes h
  obtain rfl := keyText_text_cancel hm hm' htext
  exact ⟨rfl, keyText_pair_cancel htext⟩

/-- A name, a query and the ids of points, as a rerank has them. -/
private theorem keyBytes_rerankParts {m m' q q' : String} {hits hits' : List SearchHit} (hm : Plain m)
    (hm' : Plain m') (h : keyBytes (rerankParts m q hits) = keyBytes (rerankParts m' q' hits')) :
    m = m' ∧ q = q' ∧ hits.map (·.pointId) = hits'.map (·.pointId) := by
  have htext := keyText_of_keyBytes h
  obtain rfl := keyText_text_cancel hm hm' htext
  obtain ⟨hq, hids⟩ := keyText_triple_cancel htext
  have hstr : Function.Injective Value.str := fun _ _ => Value.str.inj
  refine ⟨rfl, hq, List.map_injective_iff.mpr hstr ?_⟩
  rw [List.map_map, List.map_map]
  exact Value.arr.inj hids

/-- At every call site the bytes that are hashed determine the arguments: of a completion, an embedding, a
rewrite, a rerank by the model and one by Cohere. -/
theorem keyBytes_injective :
    (∀ c d : CompleteCall, keyBytes c.keyParts = keyBytes d.keyParts → SameKeyInputs c d) ∧
    (∀ model model' text text' : String, Plain model → Plain model' →
      keyBytes [.text model, .text text] = keyBytes [.text model', .text text'] →
      model = model' ∧ text = text') ∧
    (∀ x x' : RetrievalSetup, ∀ query query' : String,
      Plain x.llm.llmModelDefault → Plain x'.llm.llmModelDefault →
      keyBytes (rewriteParts x query) = keyBytes (rewriteParts x' query') →
      x.llm.llmModelDefault = x'.llm.llmModelDefault ∧ query = query') ∧
    (∀ x x' : RetrievalSetup, ∀ query query' : String, ∀ hits hits' : List SearchHit,
      Plain x.llm.llmModelDefault → Plain x'.llm.llmModelDefault →
      keyBytes (rerankParts x.llm.llmModelDefault query hits) =
        keyBytes (rerankParts x'.llm.llmModelDefault query' hits') →
      x.llm.llmModelDefault = x'.llm.llmModelDefault ∧ query = query' ∧
        hits.map (·.pointId) = hits'.map (·.pointId)) ∧
    (∀ x x' : RetrievalSetup, ∀ query query' : String, ∀ hits hits' : List SearchHit,
      Plain x.rerank.cohereRerankModel → Plain x'.rerank.cohereRerankModel →
      keyBytes (rerankParts x.rerank.cohereRerankModel query hits) =
        keyBytes (rerankParts x'.rerank.cohereRerankModel query' hits') →
      x.rerank.cohereRerankModel = x'.rerank.cohereRerankModel ∧ query = query' ∧
        hits.map (·.pointId) = hits'.map (·.pointId)) := by
  refine ⟨?_, ?_, ?_, ?_, ?_⟩
  · intro c d h
    exact sameKeyInputs_of_keyText (keyText_of_keyBytes h)
  · intro model model' text text' hm hm' h
    exact keyBytes_pair hm hm' h
  · intro x x' query query' hx hx' h
    exact keyBytes_pair hx hx' h
  · intro x x' query query' hits hits' hx hx' h
    exact keyBytes_rerankParts hx hx' h
  · intro x x' query query' hits hits' hx hx' h
    exact keyBytes_rerankParts hx hx' h

/-- Two queries, one with a bar and a fragment of JSON in it. -/
theorem keyBytes_injective_bar :
    keyBytes [.text "gemini-embedding-001", .text "a|[\"b\"]"] ≠
      keyBytes [.text "gemini-embedding-001", .text "a"] := by
  intro h
  have htext := (keyBytes_injective.2.1 _ _ _ _ (by decide) (by decide) h).2
  exact absurd htext (by decide)

end LegalRag
