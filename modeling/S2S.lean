import S2S.Agent.Enabled
import S2S.Agent.Envelope
import S2S.Agent.Fragments
import S2S.Agent.Messages
import S2S.Agent.Joined
import S2S.Echo.Aligned
import S2S.Agent.Nulls
import S2S.Agent.Rounds
import S2S.Agent.Spoken
import S2S.Cli.Echo
import S2S.Client.Closes
import S2S.Client.Items
import S2S.Client.Choice
import S2S.Client.Playback
import S2S.Client.Released
import S2S.Conversation.Stop
import S2S.Conversation.Written
import S2S.Http.Reason
import S2S.Llm.Outcome
import S2S.Llm.Tools
import S2S.LocalVqe.Growth
import S2S.Logs.Capture
import S2S.Session.Cuts
import S2S.Session.Lookback
import S2S.Session.RingRuns
import S2S.Session.Trace
import S2S.Jarvis.Taps
import S2S.Mcp.Events
import S2S.Mcp.Listing
import S2S.Models.Find
import S2S.Parakeet.Shift
import S2S.SmartTurn.Rounds
import S2S.Split.Units
import S2S.Update.Contacts
import S2S.Update.Seed
import S2S.Realtime.Pcm
import S2S.Tdt.Guard
import S2S.Tdt.Transcript
import S2S.Wake.Heard
import S2S.Wake.Words
import S2S.Wav.Safe
import S2S.Wire.Playing
import S2S.Wire.Voice
