import FieldFormula.Proofs.Basic
import FieldFormula.Script
import FieldFormula.Sql

/-!
How trees of either target are written. The root of a tree gives pieces, fixed text with places for
the texts below it, and the text of the tree is those pieces filled (`Sql.render_eq_filled`,
`Script.render_eq_filled`). So a property of all generated texts is one of pieces, and templates of
functions are pieces like all others. What is proved of a `Language` holds of the trees of both.
-/
namespace FieldFormula

def Piece.filled (pieces : List Piece) (args : List String) : String :=
  String.join (pieces.map (fill args))

/-- Trees that are written as pieces, filled with the texts of their parts. -/
class Output.Language (T : Type) where
  render : T → String
  layout : T → List Piece
  parts : T → List String
  render_eq_filled (e : T) : render e = Piece.filled (layout e) (parts e)

theorem Template.fill_eq_filled (t : Template) (args : List String) :
    t.fill args = Piece.filled (t.pieces args.length) args := rfl

namespace Sql

def parts : Sql → List String
  | text s | timestamp s => [quote s]
  | number d => [d.toText]
  | boolean b => [boolText b]
  | null => ["NULL"]
  | field name zero => [quote name, zero]
  | group e | asText e | negate e | not e | isNull e _ => [e.render]
  | binary _ l r | concat l r => [l.render, r.render]
  | choose c y n => [c.render, y.render, n.render]
  | call _ args | sequence args => args.map render

def layout : Sql → List Piece
  | text _ | number _ | boolean _ | null => [0]
  | timestamp _ => [0, "::timestamp"]
  | field _ _ => ["COALESCE($$VARIABLES[", 0, "], ", 1, ")"]
  | group _ => ["(", 0, ")"]
  | asText _ => [0, "::text"]
  | negate _ => ["-", 0]
  | not _ => ["NOT ", 0]
  | isNull _ negated => [0, .text (if negated then " IS NOT NULL" else " IS NULL")]
  | binary op _ _ => [0, " ", operator op, " ", 1]
  | concat _ _ => ["CONCAT(", 0, ", ", 1, ")"]
  | choose _ _ _ => ["CASE WHEN ", 0, " THEN ", 1, " ELSE ", 2, " END"]
  | call template args => template.pieces args.length
  | sequence _ => [.args 0 "; "]

theorem renderAll_eq_map (es : List Sql) : renderAll es = es.map render :=
  eq_map_of_cons rfl (fun _ _ => rfl) es

theorem render_eq_filled (e : Sql) : e.render = Piece.filled e.layout e.parts := by
  rw [render.eq_def]
  cases e with
  | call template args =>
    simp only [renderAll_eq_map, Template.fill_eq_filled, List.length_map, layout, parts]
  | _ =>
    simp [renderAll_eq_map, layout, parts, Piece.filled, Piece.fill, String.append_assoc]

instance : Output.Language Sql := ⟨render, layout, parts, render_eq_filled⟩

end Sql

namespace Script

def parts : Script → List String
  | text s => [quote s]
  | number d => [d.toText]
  | boolean b => [boolText b]
  | null => ["null"]
  | field name zero => [quoteKey name, zero]
  | group e | negate e | not e | isNull e _ | orEmpty e | stringOf e | instant e | isoText e
  | millis e => [e.render]
  | binary _ l r | power l r | interpolate l r => [l.render, r.render]
  | choose c y n => [c.render, y.render, n.render]
  | call _ args | sequence args => args.map render

def layout : Script → List Piece
  | text _ | number _ | boolean _ | null => [0]
  | field _ _ => ["($$VARIABLES[", 0, "] ?? ", 1, ")"]
  | group _ => ["(", 0, ")"]
  | negate _ => ["-", 0]
  | not _ => ["!", 0]
  | isNull _ negated => [0, .text (if negated then " != null" else " == null")]
  | binary op _ _ => [0, " ", operator op, " ", 1]
  | power _ _ => ["Math.pow(", 0, ", ", 1, ")"]
  | interpolate _ _ => ["`$\x7b", 0, "\x7d$\x7b", 1, "\x7d`"]
  | orEmpty _ => [0, " ?? ''"]
  | stringOf _ => ["String(", 0, ")"]
  | instant _ => ["DateTime.fromISO(", 0, ", \x7b zone: 'utc'\x7d)"]
  | isoText _ => [0, ".toString()"]
  | millis _ => [0, ".toMillis()"]
  | choose _ _ _ => ["(", 0, " ? ", 1, " : ", 2, ")"]
  | call template args => template.pieces args.length
  | sequence _ => [.args 0 "; "]

theorem renderAll_eq_map (es : List Script) : renderAll es = es.map render :=
  eq_map_of_cons rfl (fun _ _ => rfl) es

theorem render_eq_filled (e : Script) : e.render = Piece.filled e.layout e.parts := by
  rw [render.eq_def]
  cases e with
  | call template args =>
    simp only [renderAll_eq_map, Template.fill_eq_filled, List.length_map, layout, parts]
  | _ =>
    simp [renderAll_eq_map, layout, parts, Piece.filled, Piece.fill, String.append_assoc]

instance : Output.Language Script := ⟨render, layout, parts, render_eq_filled⟩

end Script

end FieldFormula
