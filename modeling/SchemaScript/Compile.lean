import SchemaScript.Schema.Draft
import SchemaScript.Sql.Generate

namespace SchemaScript

/-- Compiles a source text to SQL text. -/
def compile (source : String) : Report CompileError String :=
  ((Schema.parse source).mapError .parsing).bind fun schema =>
    schema.generate.mapError .generation

end SchemaScript
